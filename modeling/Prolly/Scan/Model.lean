import Prolly.Reads
import Prolly.Diff.Model

/-!
# Prolly.Scan.Model

Ordered reads, as the crate implements them three times over:

* `AsyncRangeIter` (`range.rs`), a pull iterator with the end of the current leaf
  cached;
* the session scans `scan_range_until` and `scan_range_reverse_until` (`read.rs`),
  which call a visitor leaf by leaf;
* `Cursor` and `CursorIterator` (`cursor.rs`), with recursive ascent through parent
  cursors.

Each keeps a path of frames from a leaf to the root. All paths here have the leaf
first. The packed `ReadNode` of the first two holds the same entries as the node it
was decoded from, and `ReadNode::search` is a binary search like `Node::search`.
-/

namespace Prolly

/-- `PathFrame`: a node on a path, and the index the walk is at. -/
structure PathFrame where
  node : Node
  index : Nat

namespace Node

/-- `entry_owned(index).ok_or(InvalidNode)`. -/
def entryOwned (n : Node) (index : Nat) : Result Entry :=
  match n.entries[index]? with
  | some e => .ok e
  | none => .error .invalidNode

/-- The index of the first key at or past the end of a range. -/
def endIndex (n : Node) (stop : Option Bytes) : Nat :=
  match stop with
  | none => n.len
  | some stop =>
    match n.search stop with
    | .ok index => index
    | .error index => index

/-- `child_starts_at_or_after_end`. -/
def childStartsAtOrAfterEnd (n : Node) (stop : Option Bytes) (index : Nat) : Result Bool :=
  match stop with
  | none => .ok false
  | some stop =>
    match n.keys[index]? with
    | none => .error .invalidNode
    | some firstKey => .ok (stop ≤ firstKey)

end Node

/-! ### Range iterators -/

/-- `AsyncRangeIter`. -/
structure RangeIter where
  stack : List PathFrame
  stop : Option Bytes
  started : Bool
  startKey : Bytes
  skipStartKey : Bool
  lastLocation : Option PathFrame
  leafEnd : Option Nat

/-- `RangeStep`; errors are those of `Result`. -/
inductive RangeStep where
  | entry
  | needsChild
  | finished

namespace RangeIter

/-- `AsyncRangeIter::new`. -/
def new (stack : List PathFrame) (start : Bytes) (stop : Option Bytes) : RangeIter :=
  ⟨stack, stop, false, start, false, none, none⟩

/-- `AsyncRangeIter::new_after`. -/
def newAfter (stack : List PathFrame) (afterKey : Bytes) (stop : Option Bytes) : RangeIter :=
  ⟨stack, stop, false, afterKey, true, none, none⟩

/-- The index `position_at_start` moves to in a leaf. -/
def startIndex (it : RangeIter) (n : Node) : Nat :=
  match n.search it.startKey with
  | .ok i => if it.skipStartKey then i + 1 else i
  | .error i => i

/-- `position_at_start`. -/
def positionAtStart (it : RangeIter) : RangeIter :=
  if it.started then it
  else
    match it.stack with
    | ⟨node, _⟩ :: rest =>
      if node.leaf then
        { it with
          started := true
          stack := ⟨node, it.startIndex node⟩ :: rest
          leafEnd := some (node.endIndex it.stop) }
      else { it with started := true }
    | [] => { it with started := true }

/-- `advance_to_next_sibling`, after `stack.pop()`: whether there is one, and the stack
left. -/
def advanceToNextSibling (stop : Option Bytes) : List PathFrame → Result (Bool × List PathFrame)
  | [] => .ok (false, [])
  | ⟨parent, index⟩ :: rest =>
    if index + 1 < parent.len then do
      let past ← parent.childStartsAtOrAfterEnd stop (index + 1)
      return (!past, ⟨parent, index + 1⟩ :: rest)
    else advanceToNextSibling stop rest

/-- The location `ready_step` records: on entering a leaf it names the leaf, later only
the index moves. -/
def locationAt (it : RangeIter) (node : Node) (index : Nat) : PathFrame :=
  match it.lastLocation, it.leafEnd with
  | some last, some _ => ⟨last.node, index⟩
  | _, _ => ⟨node, index⟩

/-- The loop of `ready_step`. -/
def readyLoop : Nat → RangeIter → Result (RangeStep × RangeIter)
  | 0, _ => .error .outOfFuel
  | fuel + 1, it =>
    match it.stack with
    | [] => .ok (.finished, it)
    | ⟨node, index⟩ :: rest =>
      if node.len ≤ index then do
        let (more, stack) ← advanceToNextSibling it.stop rest
        let it := { it with stack, leafEnd := none }
        if more then readyLoop fuel it else .ok (.finished, it)
      else if node.leaf then
        let leafEnd := it.leafEnd.getD (node.endIndex it.stop)
        let it' := { it with leafEnd := some leafEnd }
        if leafEnd ≤ index then .ok (.finished, it')
        else
          .ok (.entry, { it' with
            stack := ⟨node, index + 1⟩ :: rest
            lastLocation := some (it.locationAt node index) })
      else do
        if ← node.childStartsAtOrAfterEnd it.stop index then .ok (.finished, it)
        else .ok (.needsChild, it)

/-- `ready_step`. -/
def readyStep (fuel : Nat) (it : RangeIter) : Result (RangeStep × RangeIter) :=
  readyLoop fuel it.positionAtStart

/-- The children after `index` that a batch read fetches along. -/
def prefetchChildren (node : Node) (stop : Option Bytes) : Nat → Nat → List Cid
  | 0, _ => []
  | count + 1, index =>
    match node.childStartsAtOrAfterEnd stop index, node.childCid index with
    | .ok false, .ok cid => cid :: prefetchChildren node stop count (index + 1)
    | _, _ => []

/-- `RANGE_CHILD_PREFETCH_PARALLELISM`. -/
def childPrefetchParallelism : Nat := 16

/-- `load_child_for_descent`. -/
def loadChildForDescent (p : Manager) (it : RangeIter) (node : Node) (index : Nat) :
    Result Node := do
  let childCid ← node.childCid index
  if !p.prefersBatchReads then p.loadArc childCid
  else do
    let maxChildIndex := min node.len (index + childPrefetchParallelism)
    let childCids := childCid ::
      prefetchChildren node it.stop (maxChildIndex - (index + 1)) (index + 1)
    match ← childCids.mapM p.loadArc with
    | child :: _ => .ok child
    | [] => .error .invalidNode

/-- `descend_next_child`. -/
def descendNextChild (p : Manager) (it : RangeIter) : Result RangeIter :=
  match it.stack with
  | [] => .error .invalidNode
  | ⟨node, index⟩ :: _ => do
      let child ← it.loadChildForDescent p node index
      return { it with stack := ⟨child, 0⟩ :: it.stack, leafEnd := none }

/-- What `next` makes of a step, with `go` for the next round of its loop. -/
def afterStep (p : Manager) (go : RangeIter → Result (Option Entry × RangeIter)) (it : RangeIter) :
    RangeStep → Result (Option Entry × RangeIter)
  | .entry =>
    match it.lastLocation with
    | none => .error .invalidNode
    | some location => do return (some (← location.node.entryOwned location.index), it)
  | .needsChild => do go (← it.descendNextChild p)
  | .finished => .ok (none, it)

/-- The loop of `next`. -/
def nextLoop (p : Manager) : Nat → RangeIter → Result (Option Entry × RangeIter)
  | 0, _ => .error .outOfFuel
  | fuel + 1, it => do
      let (step, it) ← it.readyStep (fuel + 1)
      it.afterStep p (nextLoop p fuel) step

/-- `next`: inside the cached part of a leaf without a step. -/
def next (p : Manager) (fuel : Nat) (it : RangeIter) : Result (Option Entry × RangeIter) :=
  match it.stack, it.leafEnd with
  | ⟨node, index⟩ :: rest, some leafEnd =>
    if node.leaf && index < leafEnd then do
      let entry ← node.entryOwned index
      return (some entry, { it with
        stack := ⟨node, index + 1⟩ :: rest
        lastLocation := it.lastLocation.map fun last => ⟨last.node, index⟩ })
    else nextLoop p fuel it
  | _, _ => nextLoop p fuel it

end RangeIter

namespace Manager

/-- The loop of `find_read_path_arcs`. -/
def findReadPathLoop (p : Manager) (key : Bytes) :
    Nat → List PathFrame → Cid → Result (List PathFrame)
  | 0, _, _ => .error .outOfFuel
  | fuel + 1, path, cid => do
      let node ← p.loadArc cid
      if node.isEmpty then
        if node.leaf then return ⟨node, 0⟩ :: path else .error .invalidNode
      else
        let index := childIndex node key
        if node.leaf then return ⟨node, index⟩ :: path
        else findReadPathLoop p key fuel (⟨node, index⟩ :: path) (← node.childCid index)

/-- `find_read_path_arcs`. -/
def findReadPathArcs (p : Manager) (fuel : Nat) (tree : Tree) (key : Bytes) :
    Result (List PathFrame) :=
  match tree.root with
  | none => .ok []
  | some root => findReadPathLoop p key fuel [] root

/-- `range`. -/
def range (p : Manager) (fuel : Nat) (tree : Tree) (start : Bytes) (stop : Option Bytes) :
    Result RangeIter :=
  if endsBeforeOrAt stop start then .ok (.new [] start stop)
  else do return .new (← p.findReadPathArcs fuel tree start) start stop

/-- `range_after`. -/
def rangeAfter (p : Manager) (fuel : Nat) (tree : Tree) (afterKey : Bytes) (stop : Option Bytes) :
    Result RangeIter :=
  if endsBeforeOrAt stop afterKey then .ok (.newAfter [] afterKey stop)
  else do return .newAfter (← p.findReadPathArcs fuel tree afterKey) afterKey stop

end Manager

/-- `collect`: all items an iterator still has. -/
def collectItems {S : Type} (next : S → Result (Option Entry × S)) : Nat → S → Result (List Entry)
  | 0, _ => .error .outOfFuel
  | fuel + 1, s => do
      match ← next s with
      | (none, _) => .ok []
      | (some e, s) => return e :: (← collectItems next fuel s)

/-! ### Session scans -/

/-- `ScanOutcome`: the number of entries visited, and what the visitor broke with. -/
structure ScanOutcome (β : Type) where
  visited : Nat
  stopped : Option β

/-- A visitor with the state it closes over: `FnMut(EntryRef) -> ControlFlow<B>`. -/
abbrev Visitor (σ β : Type) := σ → Entry → σ × Option β

section Scans

variable {σ β : Type}

/-- What the loop over one leaf leaves: the scan is over, or it goes on. -/
inductive LeafScan (σ β : Type) where
  | done (state : σ) (outcome : ScanOutcome β)
  | more (state : σ) (visited : Nat)

/-- The loop over the entries of a leaf, which ends the scan at the first key that is
`past` the bound or at which the visitor breaks. -/
def scanEntries (past : Bytes → Bool) (visit : Visitor σ β) : σ → Nat → List Entry → LeafScan σ β
  | s, visited, [] => .more s visited
  | s, visited, e :: es =>
    if past e.1 then .done s ⟨visited, none⟩
    else
      match visit s e with
      | (s, some value) => .done s ⟨visited + 1, some value⟩
      | (s, none) => scanEntries past visit s (visited + 1) es

/-- The loop of both scans: `entriesOf` lists the entries of a frame in the order the
scan visits them, `advance` moves to the next leaf. -/
def scanFrames (past : Bytes → Bool) (visit : Visitor σ β) (entriesOf : PathFrame → List Entry)
    (advance : List PathFrame → Result (Option (List PathFrame))) :
    Nat → List PathFrame → σ → Nat → Result (σ × ScanOutcome β)
  | 0, _, _, _ => .error .outOfFuel
  | _ + 1, [], s, visited => .ok (s, ⟨visited, none⟩)
  | fuel + 1, frame :: stack, s, visited =>
    if !frame.node.leaf then .error .invalidNode
    else
      match scanEntries past visit s visited (entriesOf frame) with
      | .done s outcome => .ok (s, outcome)
      | .more s visited => do
          match ← advance stack with
          | none => .ok (s, ⟨visited, none⟩)
          | some stack => scanFrames past visit entriesOf advance fuel stack s visited

end Scans

namespace Manager

/-- The way down of `advance_forward` and `advance_reverse`: to a leaf, in each node at
the index `side` picks. -/
def descendSide (p : Manager) (side : Node → Option Nat) :
    Nat → List PathFrame → Cid → Result (List PathFrame)
  | 0, _, _ => .error .outOfFuel
  | fuel + 1, stack, cid => do
      let node ← p.loadArc cid
      match side node with
      | none => .error .invalidNode
      | some index =>
        if node.leaf then return ⟨node, index⟩ :: stack
        else descendSide p side fuel (⟨node, index⟩ :: stack) (← node.childCid index)

/-- The first index. Only an empty internal node is refused. -/
def firstSide (n : Node) : Option Nat := if n.isEmpty && !n.leaf then none else some 0

/-- The last index: `len().checked_sub(1)`. -/
def lastSide (n : Node) : Option Nat := if n.isEmpty then none else some (n.len - 1)

/-- `advance_forward`, after `stack.pop()`. -/
def advanceForward (p : Manager) (fuel : Nat) : List PathFrame → Result (Option (List PathFrame))
  | [] => .ok none
  | ⟨parent, index⟩ :: stack =>
    if parent.leaf || parent.isEmpty then .error .invalidNode
    else if parent.len ≤ index + 1 then advanceForward p fuel stack
    else do
      let cid ← parent.childCid (index + 1)
      return some (← p.descendSide firstSide fuel (⟨parent, index + 1⟩ :: stack) cid)

/-- `advance_reverse`, after `stack.pop()`. -/
def advanceReverse (p : Manager) (fuel : Nat) : List PathFrame → Result (Option (List PathFrame))
  | [] => .ok none
  | ⟨parent, index⟩ :: stack =>
    if parent.leaf || parent.isEmpty then .error .invalidNode
    else if index = 0 then advanceReverse p fuel stack
    else do
      let cid ← parent.childCid (index - 1)
      return some (← p.descendSide lastSide fuel (⟨parent, index - 1⟩ :: stack) cid)

/-- The loop of `seek_forward`. -/
def seekForwardLoop (p : Manager) (start : Bytes) (strictStart : Bool) :
    Nat → List PathFrame → Cid → Result (List PathFrame)
  | 0, _, _ => .error .outOfFuel
  | fuel + 1, stack, cid => do
      let node ← p.loadArc cid
      if node.leaf then
        return ⟨node, partitionPoint (fun k => if strictStart then k ≤ start else k < start)
          node.keys⟩ :: stack
      else if node.isEmpty then .error .invalidNode
      else
        let index := node.childFor start
        seekForwardLoop p start strictStart fuel (⟨node, index⟩ :: stack) (← node.childCid index)

/-- `seek_forward`. -/
def seekForward (p : Manager) (fuel : Nat) (tree : Tree) (start : Bytes) (strictStart : Bool) :
    Result (List PathFrame) :=
  match tree.root with
  | none => .ok []
  | some root => seekForwardLoop p start strictStart fuel [] root

/-- The number of keys before the end of a range. -/
def exclusiveEnd (n : Node) (stop : Option Bytes) : Nat :=
  match stop with
  | some stop => partitionPoint (· < stop) n.keys
  | none => n.len

/-- The loop of `seek_reverse`. -/
def seekReverseLoop (p : Manager) (stop : Option Bytes) :
    Nat → List PathFrame → Cid → Result (List PathFrame)
  | 0, _, _ => .error .outOfFuel
  | fuel + 1, stack, cid => do
      let node ← p.loadArc cid
      if !node.leaf && node.isEmpty then .error .invalidNode
      else if exclusiveEnd node stop = 0 then return []
      else
        let index := exclusiveEnd node stop - 1
        if node.leaf then return ⟨node, index⟩ :: stack
        else seekReverseLoop p stop fuel (⟨node, index⟩ :: stack) (← node.childCid index)

/-- `seek_reverse`. -/
def seekReverse (p : Manager) (fuel : Nat) (tree : Tree) (stop : Option Bytes) :
    Result (List PathFrame) :=
  match tree.root with
  | none => .ok []
  | some root => seekReverseLoop p stop fuel [] root

variable {σ β : Type}

/-- `scan_forward_until`. -/
def scanForwardUntil (p : Manager) (fuel : Nat) (tree : Tree) (start : Bytes) (stop : Option Bytes)
    (strictStart : Bool) (visit : Visitor σ β) (s : σ) : Result (σ × ScanOutcome β) :=
  if endsBeforeOrAt stop start then .ok (s, ⟨0, none⟩)
  else do
    let stack ← p.seekForward fuel tree start strictStart
    scanFrames (fun key => endsBeforeOrAt stop key) visit
      (fun frame => frame.node.entries.drop frame.index) (p.advanceForward fuel) fuel stack s 0

/-- `scan_range_until`. -/
def scanRangeUntil (p : Manager) (fuel : Nat) (tree : Tree) (start : Bytes) (stop : Option Bytes)
    (visit : Visitor σ β) (s : σ) : Result (σ × ScanOutcome β) :=
  p.scanForwardUntil fuel tree start stop false visit s

/-- `scan_range_reverse_until`. -/
def scanRangeReverseUntil (p : Manager) (fuel : Nat) (tree : Tree) (start : Bytes)
    (stop : Option Bytes) (visit : Visitor σ β) (s : σ) : Result (σ × ScanOutcome β) :=
  if endsBeforeOrAt stop start then .ok (s, ⟨0, none⟩)
  else do
    let stack ← p.seekReverse fuel tree stop
    scanFrames (fun key => decide (key < start)) visit
      (fun frame => (frame.node.entries.take (frame.index + 1)).reverse) (p.advanceReverse fuel)
      fuel stack s 0

end Manager

/-! ### Cursors -/

/-- `Cursor`, with the chain of its parents. -/
structure Cursor where
  index : Nat
  node : Node
  parents : List PathFrame

namespace Cursor

/-- `Cursor::invalid`. -/
def invalid : Cursor := ⟨0, {}, []⟩

/-- `is_valid`. -/
def isValid (c : Cursor) : Bool := !c.node.isEmpty && c.index < c.node.len

/-- `get_key`. -/
def getKey (c : Cursor) : Option Bytes := if c.isValid then c.node.keys[c.index]? else none

/-- `get_value`. -/
def getValue (c : Cursor) : Option Bytes :=
  if c.isValid && c.node.leaf then c.node.vals[c.index]? else none

/-- `load_node`: unlike `load_arc` it does not check what it finds. -/
def loadNode (p : Manager) (cid : Cid) : Result Node :=
  match p.store cid with
  | none => .error (.notFound cid)
  | some node => .ok node

/-- Down to a leaf, in every node to the child at an index. -/
def descendAt (p : Manager) (index : Node → Nat) : Nat → List PathFrame → Cid → Result Cursor
  | 0, _, _ => .error .outOfFuel
  | fuel + 1, parents, cid => do
      let node ← loadNode p cid
      if node.leaf then return ⟨index node, node, parents⟩
      else descendAt p index fuel (⟨node, index node⟩ :: parents) (← node.childCid (index node))

/-- `navigate_to_key`; `key_index` is the index a descent goes on at. -/
def navigateToKey (p : Manager) (key : Bytes) : Nat → List PathFrame → Cid → Result Cursor :=
  descendAt p (Manager.childIndex · key)

/-- `at_item`. -/
def atItem (p : Manager) (fuel : Nat) (tree : Tree) (key : Bytes) : Result Cursor :=
  match tree.root with
  | none => .ok invalid
  | some root => navigateToKey p key fuel [] root

/-- `descend_to_leftmost_leaf`: down to the first leaf below the child `cid`. -/
def descendToLeftmostLeaf (p : Manager) : Nat → List PathFrame → Cid → Result Cursor :=
  descendAt p fun _ => 0

/-- `child_starts_at_or_after_end` of `cursor.rs`: a missing key counts as past the end. -/
def childIsPast (n : Node) (stop : Option Bytes) (index : Nat) : Bool :=
  match n.childStartsAtOrAfterEnd stop index with
  | .ok past => past
  | .error _ => true

/-- `advance_via_parent_before`; `none` is `false`. A failed load ends the walk like the
end of the tree does. -/
def advanceViaParentBefore (p : Manager) (fuel : Nat) (stop : Option Bytes) :
    List PathFrame → Option Cursor
  | [] => none
  | ⟨parent, index⟩ :: rest =>
    if index + 1 < parent.len then
      if childIsPast parent stop (index + 1) then none
      else
        match (do
          let cid ← parent.childCid (index + 1)
          descendToLeftmostLeaf p fuel (⟨parent, index + 1⟩ :: rest) cid : Result Cursor) with
        | .ok c => some c
        | .error _ => none
    else advanceViaParentBefore p fuel stop rest

/-- `advance_before`: whether there is a next entry before the end, and the cursor. -/
def advanceBefore (p : Manager) (fuel : Nat) (stop : Option Bytes) (c : Cursor) : Bool × Cursor :=
  if !c.isValid then (false, c)
  else if c.index + 1 < c.node.len then
    if childIsPast c.node stop (c.index + 1) then (false, { c with index := c.node.len })
    else (true, { c with index := c.index + 1 })
  else
    match advanceViaParentBefore p fuel stop c.parents with
    | some c => (true, c)
    | none => (false, ⟨c.node.len, c.node, []⟩)

end Cursor

/-- `CursorIterator`. -/
structure CursorIterator where
  cursor : Cursor
  startKey : Option Bytes
  endKey : Option Bytes
  started : Bool

namespace CursorIterator

/-- `with_bounds`. -/
def withBounds (cursor : Cursor) (startKey endKey : Option Bytes) : CursorIterator :=
  ⟨cursor, startKey, endKey, false⟩

/-- `is_at_or_after_start`. -/
def isAtOrAfterStart (it : CursorIterator) (c : Cursor) : Bool :=
  match it.startKey, c.getKey with
  | some start, some current => start ≤ current
  | none, some _ => true
  | _, none => false

/-- `is_before_end`. -/
def isBeforeEnd (it : CursorIterator) (c : Cursor) : Bool :=
  match it.endKey, c.getKey with
  | some stop, some current => current < stop
  | none, some _ => true
  | _, none => false

/-- The loop of the first call: skip what is before the start bound. -/
def skipToStart (p : Manager) (it : CursorIterator) : Nat → Cursor → Result (Bool × Cursor)
  | 0, _ => .error .outOfFuel
  | fuel + 1, c =>
    if c.isValid && !it.isAtOrAfterStart c then
      match c.advanceBefore p fuel it.endKey with
      | (true, c) => skipToStart p it fuel c
      | (false, c) => .ok (false, c)
    else .ok (true, c)

/-- The move `next` begins with: to the start bound at first, then to the next entry. -/
def move (p : Manager) (fuel : Nat) (it : CursorIterator) : Result (Bool × Cursor) :=
  if it.started then .ok (it.cursor.advanceBefore p fuel it.endKey)
  else it.skipToStart p fuel it.cursor

/-- What `next` yields at a cursor. -/
def item (it : CursorIterator) (c : Cursor) : Option Entry :=
  if !c.isValid || !it.isBeforeEnd c then none
  else do return (← c.getKey, ← c.getValue)

/-- `next`. -/
def next (p : Manager) (fuel : Nat) (it : CursorIterator) :
    Result (Option Entry × CursorIterator) :=
  if !it.cursor.isValid then .ok (none, it)
  else do
    let (found, cursor) ← it.move p fuel
    return (if found then it.item cursor else none, { it with cursor, started := true })

end CursorIterator

/-- `range_cursor`. -/
def Manager.rangeCursor (p : Manager) (fuel : Nat) (tree : Tree) (start : Bytes)
    (stop : Option Bytes) : Result CursorIterator :=
  if endsBeforeOrAt stop start then .ok (.withBounds .invalid (some start) stop)
  else do return .withBounds (← Cursor.atItem p fuel tree start) (some start) stop

end Prolly
