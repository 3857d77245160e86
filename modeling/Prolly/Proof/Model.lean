import Prolly.NodeDecode
import Prolly.Diff.Model

/-!
# Prolly.Proof.Model

Store-independent verification of key, multi-key, range, range-page and diff-page proofs
(`proof.rs`). A proof carries decoded nodes; the verifier recomputes their content
identifiers and never consults a store.

Level arithmetic saturates at 255, as `u8::saturating_add` does. The node map of a
proof is the list of its nodes; looking a content identifier up finds the last node with that
identifier, which is the one `HashMap::insert` keeps.
-/

namespace Prolly

/-- `child.level.saturating_add(1)`. -/
def parentLevel (level : Nat) : Nat := min (level + 1) 255

variable (n : Node) (d : Digests)

/-- `node_shape_is_valid`. -/
def nodeShapeIsValid : Bool :=
  !(n.keys.isEmpty || n.keys.length ≠ n.vals.length) && n.keys.IsChain (· < ·) &&
    (n.leaf || n.vals.all fun v => v.length = 32)

/-- `path_child_index`. -/
def pathChildIndex (key : Bytes) : Nat := (n.keys.takeWhile (· ≤ key)).length - 1

/-- `verified_leaf_value`, for a node that is there. -/
def verifiedLeafValue (leaf : Node) (key : Bytes) : Option Bytes :=
  if !leaf.leaf then none
  else
    match leaf.search key with
    | .ok index => leaf.vals[index]?
    | .error _ => none

/-- The identifier an internal node names at an index. -/
def childAt (index : Nat) : Option Cid := (n.vals[index]?).bind Cid.ofBytes

/-! ### Key proofs -/

/-- `KeyProof`. -/
structure KeyProof where
  root : Option Cid
  key : Bytes
  path : List Node

/-- `KeyProofVerification`. -/
structure KeyProofVerification where
  valid : Bool
  root : Option Cid
  key : Bytes
  value : Option Bytes

/-- The loop of `proof_is_consistent` over the nodes of the path. -/
def pathIsConsistent (d : Digests) (key : Bytes) : List Node → Bool
  | [] => false
  | [node] => nodeShapeIsValid node && node.leaf
  | node :: next :: path =>
    nodeShapeIsValid node && !node.leaf && node.level = parentLevel next.level &&
      childAt node (pathChildIndex node key) = some (next.cid d) &&
      pathIsConsistent d key (next :: path)

/-- `proof_is_consistent`. -/
def proofIsConsistent (proof : KeyProof) : Bool :=
  match proof.root, proof.path with
  | none, [] => true
  | none, _ :: _ => false
  | some _, [] => false
  | some root, first :: path =>
    first.cid d = root && pathIsConsistent d proof.key (first :: path)

/-- `verify_key_proof`. -/
def verifyKeyProof (proof : KeyProof) : KeyProofVerification where
  valid := proofIsConsistent d proof
  root := proof.root
  key := proof.key
  value :=
    if proofIsConsistent d proof then
      proof.path.getLast?.bind fun leaf => verifiedLeafValue leaf proof.key
    else none

/-! ### Multi-key proofs -/

/-- `MultiKeyProof`. -/
structure MultiKeyProof where
  root : Option Cid
  keys : List Bytes
  path : List Node

/-- `MultiKeyProofVerification`. -/
structure MultiKeyProofVerification where
  valid : Bool
  root : Option Cid
  results : List KeyProofVerification

/-- `proof_node_map` and its relatives: every node must have a valid shape. -/
def proofNodeMap (path : List Node) : Option (List Node) :=
  if path.all nodeShapeIsValid then some path else none

/-- `node_map.get(cid)`. -/
def nodeMapGet (nodes : List Node) (cid : Cid) : Option Node :=
  nodes.reverse.find? fun node => node.cid d = cid

/-- `node_map.len()`. -/
def nodeMapLen (nodes : List Node) : Nat := (nodes.map (Node.cid d)).dedup.length

/-- The loop of `verified_value_from_node_set`, with the iterations left. -/
def verifiedValueLoop (d : Digests) (nodes : List Node) (key : Bytes) :
    Nat → List Cid → Cid → Option (Option Bytes)
  | 0, _, _ => none
  | rounds + 1, visited, cid =>
    if cid ∈ visited then none
    else (nodeMapGet d nodes cid).bind fun node =>
      if node.leaf then some (verifiedLeafValue node key)
      else (childAt node (pathChildIndex node key)).bind fun childCid =>
        (nodeMapGet d nodes childCid).bind fun child =>
          if node.level ≠ parentLevel child.level then none
          else verifiedValueLoop d nodes key rounds (cid :: visited) childCid

/-- `verified_value_from_node_set`. -/
def verifiedValueFromNodeSet (root : Cid) (key : Bytes) (nodes : List Node) :
    Option (Option Bytes) :=
  verifiedValueLoop d nodes key (nodeMapLen d nodes + 1) [] root

/-- `verify_multi_key_proof`. -/
def verifyMultiKeyProof (proof : MultiKeyProof) : MultiKeyProofVerification :=
  let unverified : List KeyProofVerification :=
    proof.keys.map fun key => ⟨false, proof.root, key, none⟩
  match proofNodeMap proof.path with
  | none => ⟨false, proof.root, unverified⟩
  | some nodes =>
    match proof.root with
    | none =>
      let valid := proof.path.isEmpty
      ⟨valid, none, unverified.map fun r => { r with valid }⟩
    | some root =>
      if proof.keys.isEmpty then
        ⟨proof.path.isEmpty || (nodeMapGet d nodes root).isSome, some root, unverified⟩
      else
        let results := unverified.map fun r =>
          match verifiedValueFromNodeSet d root r.key nodes with
          | some value => { r with valid := true, value }
          | none => r
        ⟨results.all fun r => r.valid, some root, results⟩

/-! ### Windows of keys

Range proofs and range-page proofs are verified by the same walk. They differ in the
keys and the spans they admit, and in when they are empty. -/

/-- What a range walk asks about its bounds. -/
structure Window where
  contains : Bytes → Bool
  overlaps : ChildSpan → Bool
  /-- The bounds `overlapping_child_index_range` is called with. -/
  bounds : KeyRange
  isEmptyByBounds : Bool

/-- `start..end`, with the start included: `key_in_range`, `span_overlaps_range` and
`range_is_empty_by_bounds`. -/
def KeyRange.window (r : KeyRange) : Window where
  contains := keyInRange r.start r.stop
  overlaps s := s.overlaps r.start r.stop
  bounds := r
  isEmptyByBounds := endsBeforeOrAt r.stop r.start

/-- The window of a page: keys after `after` and before `stop`. -/
structure PageRange where
  after : Option Bytes
  stop : Option Bytes
  deriving DecidableEq

namespace PageRange

/-- `key_in_page_range`. -/
def contains (r : PageRange) (key : Bytes) : Bool :=
  (match r.after with
    | some after => after < key
    | none => true) &&
  match r.stop with
    | some stop => key < stop
    | none => true

/-- `page_range_is_empty_by_bounds`. -/
def isEmptyByBounds (r : PageRange) : Bool :=
  match r.after, r.stop with
  | some after, some stop => stop ≤ after
  | none, some stop => stop.isEmpty
  | _, none => false

/-- `span_overlaps_page_range`. -/
def overlaps (r : PageRange) (s : ChildSpan) : Bool :=
  !(match r.after with
    | some after => endsBeforeOrAt s.stop after
    | none => false) &&
  !endsBeforeOrAt r.stop s.start

/-- The bounds `overlapping_child_index_range` is called with. -/
def traversal (r : PageRange) : KeyRange := ⟨r.after.getD [], r.stop⟩

def window (r : PageRange) : Window := ⟨r.contains, r.overlaps, r.traversal, r.isEmptyByBounds⟩

end PageRange

/-! ### Range and range-page proofs -/

/-- The children `overlapping_child_index_range` lists, with their spans. -/
def Node.windowSpans (w : Window) : List ChildSpan :=
  ((n.childSpans none).take (n.lastOverlapping w.bounds)).drop (n.firstOverlapping w.bounds)

/-- The loop of `verify_range_node` and `verify_range_page_node` over the children of
`node`, with `verify` for the recursive call. `none` is `return false`. -/
def verifyChildren (d : Digests) (nodes : List Node) (w : Window) (node : Node)
    (verify : Cid → Option (List Entry)) : List ChildSpan → Option (List Entry)
  | [] => some []
  | s :: spans =>
    if !w.overlaps s then
      if endsBeforeOrAt w.bounds.stop s.start then some []
      else verifyChildren d nodes w node verify spans
    else (Cid.ofBytes s.child).bind fun childCid =>
      (nodeMapGet d nodes childCid).bind fun child =>
        if node.level ≠ parentLevel child.level then none
        else (verify childCid).bind fun entries =>
          (verifyChildren d nodes w node verify spans).map (entries ++ ·)

/-- The walk of both verifiers. The recursion descends along a path without repeated
identifiers, so the number of nodes bounds its depth (`verifyNode_stable`). -/
def verifyNode (d : Digests) (nodes : List Node) (w : Window) :
    Nat → List Cid → Cid → Option (List Entry)
  | 0, _, _ => none
  | depth + 1, stack, cid =>
    if cid ∈ stack then none
    else (nodeMapGet d nodes cid).bind fun node =>
      if node.leaf then some (node.entries.filter fun e => w.contains e.1)
      else verifyChildren d nodes w node (verifyNode d nodes w depth (cid :: stack))
        (node.windowSpans w)

/-- `verify_range_node`. -/
def verifyRangeNode (r : KeyRange) (nodes : List Node) :
    Nat → List Cid → Cid → Option (List Entry) := verifyNode d nodes r.window

/-- `verify_range_page_node`. -/
def verifyRangePageNode (r : PageRange) (nodes : List Node) :
    Nat → List Cid → Cid → Option (List Entry) := verifyNode d nodes r.window

/-- The verdict of both verifiers, with `verify` for the walk: the entries, or `none`
where the proof is not valid. -/
def verifyWindow (isEmptyByBounds : Bool)
    (verify : List Node → Nat → List Cid → Cid → Option (List Entry)) (root : Option Cid)
    (path : List Node) : Option (List Entry) :=
  if isEmptyByBounds then if path.isEmpty then some [] else none
  else
    (proofNodeMap path).bind fun nodes =>
      match root with
      | none => if path.isEmpty then some [] else none
      | some root => verify nodes (nodes.length + 1) [] root

/-- `RangeProof`. -/
structure RangeProof where
  root : Option Cid
  range : KeyRange
  path : List Node

/-- `RangeProofVerification`. -/
structure RangeProofVerification where
  valid : Bool
  root : Option Cid
  range : KeyRange
  entries : List Entry

/-- `verify_range_proof`. -/
def verifyRangeProof (proof : RangeProof) : RangeProofVerification :=
  let entries := verifyWindow proof.range.window.isEmptyByBounds (verifyRangeNode d proof.range)
    proof.root proof.path
  ⟨entries.isSome, proof.root, proof.range, entries.getD []⟩

/-- `RangePageProof`. -/
structure RangePageProof where
  root : Option Cid
  range : PageRange
  path : List Node

/-- `RangePageProofVerification`. -/
structure RangePageProofVerification where
  valid : Bool
  root : Option Cid
  range : PageRange
  entries : List Entry

/-- `verify_range_page_proof`. -/
def verifyRangePageProof (proof : RangePageProof) : RangePageProofVerification :=
  let entries := verifyWindow proof.range.isEmptyByBounds (verifyRangePageNode d proof.range)
    proof.root proof.path
  ⟨entries.isSome, proof.root, proof.range, entries.getD []⟩

/-! ### Diff-page proofs -/

/-- `DiffPageProof`. -/
structure DiffPageProof where
  base : RangePageProof
  other : RangePageProof
  lookaheadBase : Option KeyProof
  lookaheadOther : Option KeyProof
  requestedEnd : Option Bytes
  limit : Nat

/-- `RangeCursor`. -/
structure RangeCursor where
  afterKey : Option Bytes
  deriving DecidableEq

/-- `DiffPageProofVerification`. The remaining fields of the source's record repeat the
proof. -/
structure DiffPageProofVerification where
  valid : Bool
  baseValid : Bool
  otherValid : Bool
  lookaheadValid : Bool
  diffs : List Diff
  nextCursor : Option RangeCursor

/-- `verify_diff_page_lookahead`. -/
def verifyDiffPageLookahead (base other : KeyProofVerification)
    (after requestedEnd proofEnd : Option Bytes) : Bool :=
  if !base.valid || !other.valid || base.key ≠ other.key then false
  else if proofEnd ≠ some base.key || !(PageRange.mk after requestedEnd).contains base.key then
    false
  else
    match base.value, other.value with
    | none, none => false
    | some left, some right => left ≠ right
    | _, _ => true

/-- `verify_diff_page_proof`. -/
def verifyDiffPageProof (proof : DiffPageProof) : DiffPageProofVerification :=
  let base := verifyRangePageProof d proof.base
  let other := verifyRangePageProof d proof.other
  let sameBounds := proof.base.range = proof.other.range
  let after := proof.base.range.after
  let proofEnd := proof.base.range.stop
  let rejected (lookaheadValid : Bool) : DiffPageProofVerification :=
    ⟨false, base.valid, other.valid, lookaheadValid, [], none⟩
  if !(base.valid && other.valid && sameBounds) then rejected false
  else
    -- `diff_verified_entries`
    let diffs := diffEntrySlices base.entries other.entries
    match proof.lookaheadBase, proof.lookaheadOther with
    | some lookaheadBase, some lookaheadOther =>
      let lookaheadValid := verifyDiffPageLookahead (verifyKeyProof d lookaheadBase)
        (verifyKeyProof d lookaheadOther) after proof.requestedEnd proofEnd
      if lookaheadValid && proof.limit > 0 && diffs.length = proof.limit then
        ⟨true, true, true, true, diffs, diffs.getLast?.map fun diff => ⟨some diff.key⟩⟩
      else rejected lookaheadValid
    | none, none =>
      if proof.limit = 0 then
        if diffs.isEmpty then ⟨true, true, true, true, [], some ⟨after⟩⟩ else rejected true
      else if proofEnd = proof.requestedEnd && diffs.length ≤ proof.limit then
        ⟨true, true, true, true, diffs, none⟩
      else rejected true
    | _, _ => rejected false

end Prolly
