import Prolly.Proof.Model
import Prolly.Scan.Model

/-!
# Prolly.Proof.Prove

The provers of `proof.rs`: key, multi-key, range, range-page and diff-page proofs, built
from the stored nodes.

The range collectors are a work stack with a set of the identifiers already seen; the top
of the stack is first here. They read the children a window overlaps from
`Node.windowSpans`, as the verifier does. A decoded node has as many values as keys, so
that a child without a value does not occur.
-/

namespace Prolly

/-- `RangePage`. -/
structure RangePage where
  entries : List Entry
  nextCursor : Option RangeCursor
  deriving DecidableEq

/-- `ProvedRangePage`. -/
structure ProvedRangePage where
  page : RangePage
  proof : RangePageProof

/-- `DiffPage`. -/
structure DiffPage where
  diffs : List Diff
  nextCursor : Option RangeCursor
  deriving DecidableEq

/-- `ProvedDiffPage`. -/
structure ProvedDiffPage where
  page : DiffPage
  proof : DiffPageProof

namespace Manager

/-! ### Key proofs -/

/-- The loop of `prove_key`. -/
def proveKeyLoop (p : Manager) (key : Bytes) : Nat → Cid → Result (List Node)
  | 0, _ => .error .outOfFuel
  | fuel + 1, cid => do
      let node ← p.loadArc cid
      if node.leaf then return [node]
      else
        let childCid ← node.childCid (pathChildIndex node key)
        return node :: (← proveKeyLoop p key fuel childCid)

variable (p : Manager) (fuel : Nat) (tree : Tree)

/-- `prove_key`. -/
def proveKey (key : Bytes) : Result KeyProof :=
  match tree.root with
  | none => .ok ⟨none, key, []⟩
  | some root => do return ⟨some root, key, ← p.proveKeyLoop key fuel root⟩

/-- One node of a key proof: it joins the path unless its identifier is among those seen. -/
def pushUnseen (d : Digests) (seenPath : List Cid × List Node) (node : Node) :
    List Cid × List Node :=
  if node.cid d ∈ seenPath.1 then seenPath
  else (node.cid d :: seenPath.1, seenPath.2 ++ [node])

/-- `prove_keys`. -/
def proveKeys (keys : List Bytes) : Result MultiKeyProof :=
  match tree.root with
  | none => .ok ⟨none, keys, []⟩
  | some root =>
    if keys.isEmpty then .ok ⟨some root, keys, []⟩
    else do
      let (_, path) ← keys.foldlM (fun seenPath key => do
        let keyProof ← p.proveKey fuel tree key
        return keyProof.path.foldl (pushUnseen p.digests) seenPath) ([], [])
      return ⟨some root, keys, path⟩

/-! ### Range and range-page proofs -/

/-- The loop of both collectors over the children of a node. -/
def collectChildren (w : Window) : List ChildSpan → Result (List Cid)
  | [] => .ok []
  | s :: spans =>
    if !w.overlaps s then
      if endsBeforeOrAt w.bounds.stop s.start then .ok [] else collectChildren w spans
    else do
      let childCid ← childCidFromBytes s.child
      return childCid :: (← collectChildren w spans)

/-- The loop of both collectors over the stack. -/
def collectProofNodes (p : Manager) (w : Window) :
    Nat → List Cid → List Cid → List Node → Result (List Node)
  | 0, _, _, _ => .error .outOfFuel
  | _ + 1, [], _, path => .ok path
  | fuel + 1, cid :: stack, seen, path =>
    if cid ∈ seen then collectProofNodes p w fuel stack seen path
    else do
      let node ← p.loadArc cid
      if node.leaf then collectProofNodes p w fuel stack (cid :: seen) (path ++ [node])
      else
        let childCids ← collectChildren w (node.windowSpans w)
        collectProofNodes p w fuel (childCids ++ stack) (cid :: seen) (path ++ [node])

/-- `collect_range_proof_nodes`. -/
def collectRangeProofNodes (r : KeyRange) (cid : Cid) :
    Result (List Node) := p.collectProofNodes r.window fuel [cid] [] []

/-- `collect_range_page_proof_nodes`. -/
def collectRangePageProofNodes (r : PageRange) (cid : Cid) :
    Result (List Node) := p.collectProofNodes r.window fuel [cid] [] []

/-- The path of a range or range-page proof, with `collect` for the collector: there is
nothing to prove about an empty tree or an empty window. -/
def provePath (isEmptyByBounds : Bool) (collect : Cid → Result (List Node)) (root : Option Cid) :
    Result (List Node) :=
  match root with
  | none => .ok []
  | some root => if isEmptyByBounds then .ok [] else collect root

/-- `prove_range`. -/
def proveRange (start : Bytes) (stop : Option Bytes) : Result RangeProof := do
  let path ← provePath (endsBeforeOrAt stop start) (p.collectRangeProofNodes fuel ⟨start, stop⟩)
    tree.root
  return ⟨tree.root, ⟨start, stop⟩, path⟩

/-- `prove_range_page_window`. -/
def proveRangePageWindow (r : PageRange) : Result RangePageProof := do
  let path ← provePath r.isEmptyByBounds (p.collectRangePageProofNodes fuel r) tree.root
  return ⟨tree.root, r, path⟩

/-- `range_from_cursor`. -/
def rangeFromCursor (cursor : RangeCursor) (stop : Option Bytes) : Result RangeIter :=
  match cursor.afterKey with
  | some afterKey => p.rangeAfter fuel tree afterKey stop
  | none => p.range fuel tree [] stop

/-- `for _ in 0..limit`: the entries read, and the iterator unless it has ended. -/
def takeItems {S : Type} (next : S → Result (Option Entry × S)) :
    Nat → S → Result (List Entry × Option S)
  | 0, s => .ok ([], some s)
  | limit + 1, s => do
      match ← next s with
      | (none, _) => .ok ([], none)
      | (some e, s) =>
        let (entries, rest) ← takeItems next limit s
        return (e :: entries, rest)

/-- `prove_range_page`. -/
def proveRangePage (cursor : RangeCursor) (stop : Option Bytes) (limit : Nat)
    : Result ProvedRangePage :=
  let after := cursor.afterKey
  if limit = 0 then .ok ⟨⟨[], some cursor⟩, ⟨tree.root, ⟨after, after.or (some [])⟩, []⟩⟩
  else do
    let it ← p.rangeFromCursor fuel tree cursor stop
    withCapacity entrySize limit
    let (entries, rest) ← takeItems (RangeIter.next p fuel) limit it
    match rest with
    | none =>
      let proof ← p.proveRangePageWindow fuel tree ⟨after, stop⟩
      return ⟨⟨entries, none⟩, proof⟩
    | some it =>
      let (lookahead, _) ← RangeIter.next p fuel it
      let proof ← p.proveRangePageWindow fuel tree ⟨after, (lookahead.map Prod.fst).or stop⟩
      let nextCursor := lookahead.bind fun _ => entries.getLast?.map fun e => ⟨some e.1⟩
      return ⟨⟨entries, nextCursor⟩, proof⟩

/-! ### Diff-page proofs -/

/-- `diff_from_cursor`. -/
def diffFromCursor (base other : Tree) (cursor : RangeCursor) (stop : Option Bytes)
    : Result (List Diff) := do
  let diffs ← p.computeRangeDiff fuel base other (cursor.afterKey.getD []) stop
  match cursor.afterKey with
  | some afterKey => return diffs.filter fun diff => afterKey < diff.key
  | none => return diffs

/-- `prove_key` of a lookahead key, where there is one. -/
def proveLookahead : Option Bytes → Result (Option KeyProof)
  | some key => do return some (← p.proveKey fuel tree key)
  | none => .ok none

/-- `prove_diff_page`. -/
def proveDiffPage (base other : Tree) (cursor : RangeCursor) (stop : Option Bytes) (limit : Nat)
    : Result ProvedDiffPage :=
  let after := cursor.afterKey
  if limit = 0 then
    let window : PageRange := ⟨after, after.or (some [])⟩
    .ok ⟨⟨[], some cursor⟩,
      ⟨⟨base.root, window, []⟩, ⟨other.root, window, []⟩, none, none, stop, limit⟩⟩
  else do
    let allDiffs ← p.diffFromCursor fuel base other cursor stop
    let lookaheadKey := allDiffs[limit]?.map fun diff => diff.key
    let diffs := allDiffs.take limit
    let nextCursor := lookaheadKey.bind fun _ => diffs.getLast?.map fun diff => ⟨some diff.key⟩
    let window : PageRange := ⟨after, lookaheadKey.or stop⟩
    let lookaheadBase ← p.proveLookahead fuel base lookaheadKey
    let lookaheadOther ← p.proveLookahead fuel other lookaheadKey
    let baseProof ← p.proveRangePageWindow fuel base window
    let otherProof ← p.proveRangePageWindow fuel other window
    return ⟨⟨diffs, nextCursor⟩,
      ⟨baseProof, otherProof, lookaheadBase, lookaheadOther, stop, limit⟩⟩

end Manager

end Prolly
