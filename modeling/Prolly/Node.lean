import Prolly.Format

/-!
# Prolly.Node

Tree nodes (`node.rs`): structure, validation, key search and the compact node
encoding whose SHA-256 digest is the node's content identifier.

Lengths, levels and child counts are natural numbers. The encoder writes them as
unbounded LEB128, which agrees with `write_varint` on every value a `u64` holds.
-/

namespace Prolly

open SortedAssoc (lookup)

/-- A node in the prolly tree. -/
structure Node where
  /-- Keys (sorted, lexicographic byte order). -/
  keys : List Bytes := []
  /-- Values: raw bytes for leaves, CIDs for internal nodes. -/
  vals : List Bytes := []
  /-- Logical entry counts for internal children. Empty for leaf nodes. -/
  childCounts : List Nat := []
  leaf : Bool := true
  level : Nat := 0
  format : TreeFormat := {}
  deriving DecidableEq

/-- `Node::default`: an empty leaf of the default format. -/
instance : Inhabited Node := ⟨{}⟩

namespace Node

def len (n : Node) : Nat := n.keys.length

def isEmpty (n : Node) : Bool := n.keys.isEmpty

/-- The key/value pairs of a node, as the loops over `0..len` visit them. -/
def entries (n : Node) : List Entry := n.keys.zip n.vals

/-- `Node::search`: `.ok` is the index of the key, `.error` the insertion point. -/
def search (n : Node) (key : Bytes) : Except Nat Nat :=
  let index := (n.keys.takeWhile (· < key)).length
  if n.keys[index]? = some key then .ok index else .error index

/-- `Node::validate`. -/
def validate (n : Node) : Result Unit := do
  n.format.validate
  if n.keys.length ≠ n.vals.length ∨ ¬ n.keys.IsChain (· < ·) then
    .error .invalidNode
  else if n.leaf then
    if n.childCounts ≠ [] then .error .invalidNode else .ok ()
  else if n.keys = [] ∨ n.childCounts.length ≠ n.keys.length ∨ 0 ∈ n.childCounts then
    .error .invalidNode
  else .ok ()

/-! ### Compact encoding -/

/-- `write_varint`. -/
abbrev writeVarint (value : Nat) : Bytes := PrefixCode.leb128 value

/-- `common_prefix_len`. -/
def commonPrefixLen : Bytes → Bytes → Nat
  | a :: as, b :: bs => if a = b then commonPrefixLen as bs + 1 else 0
  | _, _ => 0

/-- `COMPACT_MAGIC`: `b"CRAB"`. -/
def compactMagic : Bytes := [67, 82, 65, 66]

/-- `COMPACT_VERSION`. -/
def compactVersion : Nat := 2

/-- One step of the encoding loops: a key, its value and its child count
(`unwrap_or(&0)` when the count is missing). -/
structure Row where
  key : Bytes
  val : Bytes
  count : Nat

/-- What `keys.iter().zip(&vals).enumerate()` visits. -/
def rows : List Bytes → List Bytes → List Nat → List Row
  | k :: ks, v :: vs, cs => ⟨k, v, cs.headD 0⟩ :: rows ks vs cs.tail
  | _, _, _ => []

/-- The child count an internal entry carries. -/
def writeCount (leaf : Bool) (count : Nat) : Bytes :=
  if leaf then [] else writeVarint count

/-- A byte string preceded by its length. -/
def writeBlock (b : Bytes) : Bytes := writeVarint b.length ++ b

/-- The loop of the prefix-compressed layout. -/
def encodePrefixCompressed (leaf : Bool) : Bytes → List Row → Bytes
  | _, [] => []
  | previousKey, row :: rest =>
    let shared := commonPrefixLen previousKey row.key
    writeVarint shared ++ writeBlock (row.key.drop shared) ++ writeBlock row.val
      ++ writeCount leaf row.count ++ encodePrefixCompressed leaf row.key rest

/-- The loop of the plain layout. -/
def encodePlain (leaf : Bool) : List Row → Bytes
  | [] => []
  | row :: rest =>
    writeBlock row.key ++ writeBlock row.val ++ writeCount leaf row.count
      ++ encodePlain leaf rest

/-- The loop of the offset-table layout: the table and the payload it points into. -/
def encodeOffsetTable (leaf : Bool) : Bytes → List Row → Bytes × Bytes
  | payload, [] => ([], payload)
  | payload, row :: rest =>
    let keyed := payload ++ row.key
    let tail := encodeOffsetTable leaf (keyed ++ row.val) rest
    (writeVarint payload.length ++ writeVarint row.key.length
      ++ writeVarint keyed.length ++ writeVarint row.val.length
      ++ writeCount leaf row.count ++ tail.1, tail.2)

def encodeRows (layout : NodeLayoutSpec) (leaf : Bool) (rows : List Row) : Result Bytes :=
  match layout with
  | .prefixCompressed => .ok (encodePrefixCompressed leaf [] rows)
  | .plain => .ok (encodePlain leaf rows)
  | .offsetTable =>
    let (table, payload) := encodeOffsetTable leaf [] rows
    .ok (table ++ writeBlock payload)
  | .custom id _ => .error (.invalidFormat ("node layout '" ++ id ++ "' has no registered codec"))

/-- The format descriptor a node carries: empty for the default format. -/
def formatBytes (format : TreeFormat) : Result Bytes :=
  if format = {} then .ok [] else format.canonicalBytes

/-- `Node::to_compact_bytes` (`try_to_bytes`). -/
def tryToBytes (n : Node) : Result Bytes := do
  let formatBytes ← formatBytes n.format
  let body ← encodeRows n.format.nodeLayout n.leaf (rows n.keys n.vals n.childCounts)
  return compactMagic ++ writeVarint compactVersion ++ writeBlock formatBytes
    ++ writeVarint (if n.leaf then 1 else 0) ++ writeVarint n.level
    ++ writeVarint n.keys.length ++ body

/-- `Node::to_bytes`. The source panics where `tryToBytes` fails (a format without a
codec); the model returns no bytes there. -/
def toBytes (n : Node) : Bytes :=
  match n.tryToBytes with
  | .ok bytes => bytes
  | .error _ => []

/-- `Node::cid`. -/
def cid (d : Digests) (n : Node) : Cid := d.sha256 n.toBytes

/-- `stored_node_count`: the logical entries below a node. -/
def storedCount (n : Node) : Nat := if n.leaf then n.keys.length else n.childCounts.sum

end Node

end Prolly
