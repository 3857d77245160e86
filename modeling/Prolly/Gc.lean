import Mathlib.Data.List.Dedup
import Mathlib.Data.List.Sort
import Prolly.Boundary
import Prolly.Lib.SortedMap
import Prolly.Lib.WhileLoop
import Prolly.Lib.Worklist
import Prolly.NodeDecode
import Prolly.Store

/-!
# Prolly.Gc

Garbage collection of nodes (`gc.rs` and `mark_reachable`, `plan_gc`, `sweep_gc` of
`AsyncProlly`), over the bytes that the store holds under each key.

The walk keeps a frontier of nodes to load. It takes up all nodes of the frontier with the
format of the first, loads them as a batch, and puts the children it has not found before at the
end. What has been found is kept by identifier and digest of the format. The walk marks what is
reachable through the children of stored nodes (`markReachable_exact`), and a sweep removes exactly
the other candidates (`sweepGc_exact`).
-/

namespace Prolly

open Relation (ReflTransGen)
open Worklist (Marks)
open List

/-- The bytes of the store under each key. -/
abbrev NodeBytes := SortedMap Bytes Bytes

inductive GcError where
  | engine (error : Error)
  | contentGraphResourceLimitExceeded (resource : String) (limit actual : Nat)
  | invalidExecutionConfig (field : String) (value : Nat)
  deriving DecidableEq

/-- `GcTraversalLimits`. -/
structure GcTraversalLimits where
  maxNodes : Nat
  maxNodeBytes : Nat

variable (d : Digests) (nodes : NodeBytes) (format : TreeFormat) (roots : List Tree) (cid : Cid)
  (candidates : List Cid) (fuel : Nat)

/-- `TreeFormat::digest`. -/
def TreeFormat.digest : Result Cid :=
  format.canonicalBytes.map d.sha256

/-- `load_arc_for_format`. -/
def loadForFormat : Result Node :=
  match nodes.get? cid.bytes with
  | none => .error (.notFound cid)
  | some bytes => decodeOwned d format cid bytes

/-! ### The walk -/

structure FrontierNode where
  cid : Cid
  format : TreeFormat
  digest : Cid

/-- The key under which a node is found once. -/
def FrontierNode.path (item : FrontierNode) : Cid × Cid := (item.cid, item.digest)

/-- The variables of `mark_reachable_with_limits`; identifiers are the newest first. -/
structure MarkState where
  seenPaths : List (Cid × Cid) := []
  frontier : List FrontierNode := []
  liveCids : List Cid := []
  liveBytes : Nat := 0
  leafNodes : Nat := 0
  internalNodes : Nat := 0

namespace MarkState

/-- A node is put on the frontier unless it has been found before. -/
def find (limits : GcTraversalLimits) (item : FrontierNode) (st : MarkState) :
    Except GcError MarkState :=
  if item.path ∈ st.seenPaths then .ok st
  else if limits.maxNodes < st.seenPaths.length + 1 then
    .error (.contentGraphResourceLimitExceeded "nodes" limits.maxNodes (st.seenPaths.length + 1))
  else .ok { st with
    seenPaths := item.path :: st.seenPaths, frontier := st.frontier ++ [item] }

def findRoots (d : Digests) (limits : GcTraversalLimits) :
    List Tree → MarkState → Except GcError MarkState
  | [], st => .ok st
  | tree :: trees, st =>
    match tree.root with
    | none => findRoots d limits trees st
    | some root =>
      match tree.format.digest d with
      | .error error => .error (.engine error)
      | .ok digest =>
        match st.find limits ⟨root, tree.format, digest⟩ with
        | .error error => .error error
        | .ok st => findRoots d limits trees st

/-- The children of a node. It has as many values as keys, so that the loop over its keys is one
over its values. -/
def findChildren (limits : GcTraversalLimits) (format : TreeFormat) (digest : Cid) :
    List Bytes → MarkState → Except GcError MarkState
  | [], st => .ok st
  | child :: children, st =>
    match childCidFromBytes child with
    | .error error => .error (.engine error)
    | .ok cid =>
      match st.find limits ⟨cid, format, digest⟩ with
      | .error error => .error error
      | .ok st => findChildren limits format digest children st

/-- A node is counted once, whatever the formats it is found with. -/
def markLive (limits : GcTraversalLimits) (cid : Cid) (node : Node) (st : MarkState) :
    Except GcError MarkState :=
  let liveBytes := st.liveBytes + node.toBytes.length
  if cid ∈ st.liveCids then .ok st
  else if u64Max < liveBytes then
    .error (.contentGraphResourceLimitExceeded "node bytes" limits.maxNodeBytes u64Max)
  else if limits.maxNodeBytes < liveBytes then
    .error (.contentGraphResourceLimitExceeded "node bytes" limits.maxNodeBytes liveBytes)
  else .ok { st with
    liveCids := cid :: st.liveCids
    liveBytes := liveBytes
    leafNodes := if node.leaf then st.leafNodes + 1 else st.leafNodes
    internalNodes := if node.leaf then st.internalNodes else st.internalNodes + 1 }

def markNode (d : Digests) (limits : GcTraversalLimits) (format : TreeFormat) (cid : Cid)
    (node : Node) (st : MarkState) : Except GcError MarkState :=
  if node.keys.length ≠ node.vals.length then .error (.engine .invalidNode)
  else
    match st.markLive limits cid node with
    | .error error => .error error
    | .ok st =>
      if node.leaf then .ok st
      else
        match format.digest d with
        | .error error => .error (.engine error)
        | .ok digest => st.findChildren limits format digest node.vals

end MarkState

/-- A walk over stored nodes: what it has found and has to load, what it does with a loaded node,
and its error for one of the engine. -/
structure NodeWalk (σ ε : Type) where
  marks : σ → MarkState
  defer : List FrontierNode → σ → σ
  visit : TreeFormat → FrontierNode → Node → σ → Except ε σ
  engine : Error → ε
  marks_defer : ∀ frontier st, marks (defer frontier st) = { marks st with frontier }

namespace NodeWalk

variable {σ ε : Type} (w : NodeWalk σ ε)

/-- The loaded nodes of a batch, in order. -/
def visitAll (format : TreeFormat) : List (FrontierNode × Node) → σ → Except ε σ
  | [], st => .ok st
  | (item, node) :: rest, st =>
    match w.visit format item node st with
    | .error error => .error error
    | .ok st => visitAll format rest st

/-- One iteration: the nodes of the frontier with the format of the first. -/
def batch (d : Digests) (nodes : NodeBytes) (format : TreeFormat) (st : σ) : Except ε σ :=
  let current := (w.marks st).frontier.filter fun item => item.format = format
  let deferred := (w.marks st).frontier.filter fun item => item.format ≠ format
  match current.mapM fun item => loadForFormat d nodes format item.cid with
  | .error error => .error (w.engine error)
  | .ok loaded => w.visitAll format (current.zip loaded) (w.defer deferred st)

/-- The loop goes on while the frontier is not empty. -/
def step (d : Digests) (nodes : NodeBytes) (st : σ) : Option (Except ε σ) :=
  match (w.marks st).frontier with
  | [] => none
  | first :: _ => some (w.batch d nodes first.format st)

end NodeWalk

/-- The walk of `mark_reachable_with_limits`. -/
def MarkState.walk (d : Digests) (limits : GcTraversalLimits) : NodeWalk MarkState GcError where
  marks := id
  defer frontier st := { st with frontier }
  visit format item node st := st.markNode d limits format item.cid node
  engine := .engine
  marks_defer _ _ := rfl

/-- `sort_cids`. -/
def sortCids (cids : List Cid) : List Cid := cids.insertionSort fun a b => a.bytes ≤ b.bytes

/-- `GcReachability`. -/
structure GcReachability where
  liveCids : List Cid
  liveNodes : Nat
  liveBytes : Nat
  leafNodes : Nat
  internalNodes : Nat

/-- `mark_reachable_with_limits`. -/
def markReachableWithLimits (limits : GcTraversalLimits) (fuel : Nat)
    : Option (Except GcError GcReachability) :=
  if limits.maxNodes = 0 ∨ limits.maxNodeBytes = 0 then
    some (.error (.invalidExecutionConfig "gc traversal limits" 0))
  else
    match MarkState.findRoots d limits roots {} with
    | .error error => some (.error error)
    | .ok st =>
      (WhileLoop.run ((MarkState.walk d limits).step d nodes) fuel st).map fun result =>
        result.map fun st =>
          ⟨sortCids st.liveCids, st.liveCids.length, st.liveBytes, st.leafNodes, st.internalNodes⟩

/-- `mark_reachable`. -/
def markReachable : Option (Except GcError GcReachability) :=
  markReachableWithLimits d nodes roots ⟨u64Max, u64Max⟩ fuel

/-! ### Plan and sweep -/

/-- `GcPlan`. -/
structure GcPlan where
  reachability : GcReachability
  candidateNodes : Nat
  reclaimableCids : List Cid
  reclaimableNodes : Nat
  reclaimableBytes : Nat
  missingCandidates : Nat

/-- `GcSweep`. -/
structure GcSweep where
  plan : GcPlan
  deletedNodes : Nat
  deletedBytes : Nat

/-- The plan for what has been marked. Of a candidate that is repeated one occurrence counts. -/
def GcPlan.of (reachability : GcReachability) : GcPlan :=
  let unique := candidates.dedup
  let unreachable := unique.filter (· ∉ reachability.liveCids)
  let present := unreachable.filter fun cid => (nodes.get? cid.bytes).isSome
  { reachability
    candidateNodes := unique.length
    reclaimableCids := sortCids present
    reclaimableNodes := present.length
    reclaimableBytes := (present.filterMap fun cid => (nodes.get? cid.bytes).map List.length).sum
    missingCandidates := unreachable.length - present.length }

/-- `plan_gc`. -/
def planGc : Option (Except GcError GcPlan) :=
  (markReachable d nodes roots fuel).map fun result => result.map (GcPlan.of nodes candidates)

def deleteNodes (cids : List Cid) : NodeBytes :=
  cids.foldl (fun nodes cid => nodes.erase cid.bytes) nodes

/-- `sweep_gc`: the report and the store after it. -/
def sweepGc : Option (Except GcError (GcSweep × NodeBytes)) :=
  (planGc d nodes roots candidates fuel).map fun result => result.map fun plan =>
    (⟨plan, plan.reclaimableNodes, plan.reclaimableBytes⟩, deleteNodes nodes plan.reclaimableCids)

/-! ### Reachable nodes -/

def childrenIn (bytes : Bytes) : List Cid :=
  match Node.fromBytes bytes with
  | .error _ => []
  | .ok node => if node.leaf then [] else node.vals.filterMap Cid.ofBytes

def storedChildren : List Cid :=
  match nodes.get? cid.bytes with
  | none => []
  | some bytes => childrenIn bytes

def Below : Cid → Cid → Prop :=
  ReflTransGen fun parent child => child ∈ storedChildren nodes parent

def Reachable : Prop :=
  ∃ tree ∈ roots, ∃ root, tree.root = some root ∧ Below nodes root cid

/-- The paths a path leads to: the format stays. -/
def pathChildren (path : Cid × Cid) : List (Cid × Cid) :=
  (storedChildren nodes path.1).map (·, path.2)

/-- The nodes that the bytes of the store decode to. -/
def storeOf : Store := fun cid =>
  (nodes.get? cid.bytes).bind fun bytes => (Node.fromBytes bytes).toOption

def readerOf (nodes : NodeBytes) : Manager :=
  { digests := d, format, store := storeOf nodes }

variable {d : Digests} {format : TreeFormat} {nodes : NodeBytes} {cid : Cid} {node : Node}

theorem storeOf_eq_some : storeOf nodes cid = some node ↔
    ∃ bytes, nodes.get? cid.bytes = some bytes ∧ Node.fromBytes bytes = .ok node := by
  refine Option.bind_eq_some_iff.trans (exists_congr fun bytes => and_congr_right fun _ => ?_)
  cases Node.fromBytes bytes <;> simp [Except.toOption]

theorem storeOf_of_load (h : loadForFormat d nodes format cid = .ok node) :
    storeOf nodes cid = some node := by
  unfold loadForFormat at h
  split at h
  · cases h
  · next bytes hbytes =>
    unfold decodeOwned at h
    split at h
    · cases h
    · split at h
      · cases h
      · cases h
      · next node' hnode =>
        split at h
        · cases h
        · cases h
          exact storeOf_eq_some.mpr ⟨bytes, hbytes, hnode⟩

theorem storedChildren_of_store (h : storeOf nodes cid = some node) :
    storedChildren nodes cid = if node.leaf then [] else node.vals.filterMap Cid.ofBytes := by
  obtain ⟨bytes, hbytes, hnode⟩ := storeOf_eq_some.mp h
  simp only [storedChildren, childrenIn, hbytes, hnode]

theorem below_of_paths {a b : Cid × Cid}
    (h : ReflTransGen (fun a b => b ∈ pathChildren nodes a) a b) :
    Below nodes a.1 b.1 ∧ b.2 = a.2 := by
  induction h with
  | refl => exact ⟨.refl, rfl⟩
  | tail _ hstep ih =>
    obtain ⟨child, hchild, rfl⟩ := mem_map.mp hstep
    exact ⟨ih.1.tail hchild, ih.2⟩

theorem paths_of_below {root : Cid} (h : Below nodes root cid) (digest : Cid) :
    ReflTransGen (fun a b => b ∈ pathChildren nodes a) (root, digest) (cid, digest) :=
  h.lift (·, digest) fun _ _ hchild => mem_map.mpr ⟨_, hchild, rfl⟩

/-! ### What the walk finds -/

namespace MarkState

variable {d : Digests} {limits : GcTraversalLimits} {nodes : NodeBytes} {st st1 st2 : MarkState}
  {new : List FrontierNode} {item : FrontierNode} {format : TreeFormat} {cid : Cid} {node : Node}

def push (st : MarkState) (new : List FrontierNode) : MarkState :=
  { st with
    seenPaths := (new.map FrontierNode.path).reverse ++ st.seenPaths
    frontier := st.frontier ++ new }

theorem push_push (st : MarkState) (new new' : List FrontierNode) :
    (st.push new).push new' = st.push (new ++ new') := by
  simp [push]

/-- Of the paths those not found before are put on the frontier, each once. -/
structure Finds (st : MarkState) (paths : List (Cid × Cid)) (new : List FrontierNode)
    (st' : MarkState) : Prop where
  eq_push : st' = st.push new
  nodup : (new.map FrontierNode.path).Nodup
  mem : ∀ path, path ∈ new.map FrontierNode.path ↔ path ∈ paths ∧ path ∉ st.seenPaths

theorem Finds.refl : Finds st [] [] st := ⟨by simp [push], by simp, by simp⟩

theorem Finds.trans {paths paths' : List (Cid × Cid)} {new' : List FrontierNode}
    (h : Finds st paths new st1) (h' : Finds st1 paths' new' st2) :
    Finds st (paths ++ paths') (new ++ new') st2 := by
  have hseen : ∀ path, path ∈ st1.seenPaths ↔
      path ∈ new.map FrontierNode.path ∨ path ∈ st.seenPaths := by
    intro path
    rw [h.eq_push, push, mem_append, mem_reverse]
  refine ⟨?_, ?_, fun path => ?_⟩
  · rw [h'.eq_push, h.eq_push, push_push]
  · rw [map_append, nodup_append']
    refine ⟨h.nodup, h'.nodup, fun path hnew hnew' => ?_⟩
    exact ((h'.mem path).mp hnew').2 ((hseen path).mpr (.inl hnew))
  · rw [map_append, mem_append, mem_append, h'.mem, hseen, h.mem]
    tauto

theorem find_ok (h : st.find limits item = .ok st1) :
    ∃ new, Finds st [item.path] new st1 ∧ ∀ i ∈ new, i = item := by
  unfold find at h
  split at h
  · next hseen =>
    cases h
    exact ⟨[], ⟨by simp [push], by simp, by simpa using hseen⟩, by simp⟩
  · next hseen =>
    split at h
    · cases h
    · cases h
      exact ⟨[item], ⟨rfl, by simp, by simpa using hseen⟩, by simp⟩

theorem findChildren_ok {digest : Cid} {children : List Bytes}
    (h : findChildren limits format digest children st = .ok st1) :
    ∃ new, Finds st ((children.filterMap Cid.ofBytes).map (·, digest)) new st1 ∧
      ∀ item ∈ new, item.format = format ∧ item.digest = digest := by
  induction children generalizing st with
  | nil =>
    cases h
    exact ⟨[], .refl, by simp⟩
  | cons child children ih =>
    unfold findChildren childCidFromBytes at h
    cases hcid : Cid.ofBytes child with
    | none => simp [hcid] at h
    | some cid =>
      simp only [hcid] at h
      split at h
      · cases h
      · next st' hfind =>
        obtain ⟨new, hnew, hitems⟩ := find_ok hfind
        obtain ⟨new', hnew', hitems'⟩ := ih h
        refine ⟨new ++ new', ?_, forall_mem_append.mpr ⟨fun item hitem => ?_, hitems'⟩⟩
        · simpa [hcid, FrontierNode.path] using hnew.trans hnew'
        · rw [hitems item hitem]
          exact ⟨rfl, rfl⟩

def rootPaths (d : Digests) (roots : List Tree) : List (Cid × Cid) :=
  roots.filterMap fun tree => tree.root.bind fun root =>
    (tree.format.digest d).toOption.map (root, ·)

theorem findRoots_ok {roots : List Tree} (h : findRoots d limits roots st = .ok st1) :
    (∃ new, Finds st (rootPaths d roots) new st1 ∧
      ∀ item ∈ new, item.format.digest d = .ok item.digest) ∧
    ∀ tree ∈ roots, ∀ root, tree.root = some root →
      ∃ digest, (root, digest) ∈ rootPaths d roots := by
  induction roots generalizing st with
  | nil =>
    cases h
    exact ⟨⟨[], .refl, by simp⟩, by simp⟩
  | cons tree trees ih =>
    unfold findRoots at h
    split at h
    · next hroot =>
      obtain ⟨⟨new, hnew, hitems⟩, hpaths⟩ := ih h
      have hsame : rootPaths d (tree :: trees) = rootPaths d trees := by
        simp [rootPaths, hroot]
      rw [hsame]
      refine ⟨⟨new, hnew, hitems⟩, forall_mem_cons.mpr ⟨?_, hpaths⟩⟩
      simp [hroot]
    · next root hroot =>
      split at h
      · cases h
      · next digest hdigest =>
        split at h
        · cases h
        · next st' hfind =>
          obtain ⟨new, hnew, hitem⟩ := find_ok hfind
          obtain ⟨⟨new', hnew', hitems⟩, hpaths⟩ := ih h
          have hcons : rootPaths d (tree :: trees) = (root, digest) :: rootPaths d trees := by
            simp [rootPaths, hroot, hdigest, Except.toOption]
          rw [hcons]
          refine ⟨⟨new ++ new', hnew.trans hnew', forall_mem_append.mpr
            ⟨fun item h => ?_, hitems⟩⟩, forall_mem_cons.mpr ⟨?_, fun tree ht root hr => ?_⟩⟩
          · rw [hitem item h]
            exact hdigest
          · rintro root' hroot'
            obtain rfl : root = root' := Option.some.inj (hroot.symm.trans hroot')
            exact ⟨digest, mem_cons_self⟩
          · obtain ⟨digest, hmem⟩ := hpaths tree ht root hr
            exact ⟨digest, .tail _ hmem⟩

theorem markLive_ok (h : st.markLive limits cid node = .ok st1) :
    st1.seenPaths = st.seenPaths ∧ st1.frontier = st.frontier ∧
      (∀ other, other ∈ st1.liveCids ↔ other = cid ∨ other ∈ st.liveCids) ∧
      (st.liveCids.Nodup → st1.liveCids.Nodup) := by
  unfold markLive at h
  dsimp only at h
  split at h
  · next hlive =>
    cases h
    exact ⟨rfl, rfl, fun other => ⟨.inr, fun h => h.elim (fun h => h ▸ hlive) id⟩, id⟩
  · next hlive =>
    split at h
    · cases h
    · split at h
      · cases h
      · cases h
        exact ⟨rfl, rfl, fun other => by simp, fun hnodup => nodup_cons.mpr ⟨hlive, hnodup⟩⟩

/-! ### The invariant of the walk -/

/-- With `rest` of the batch still to come and `done` behind it. -/
structure Inv (d : Digests) (nodes : NodeBytes) (roots : List (Cid × Cid))
    (rest : List FrontierNode) (st : MarkState) (done : List (Cid × Cid)) : Prop where
  marks : Marks (pathChildren nodes) roots st.seenPaths
    ((rest ++ st.frontier).map FrontierNode.path) done
  live : ∀ cid, cid ∈ st.liveCids ↔ ∃ digest, (cid, digest) ∈ done
  liveNodup : st.liveCids.Nodup
  seenNodup : st.seenPaths.Nodup
  digests : ∀ item ∈ rest ++ st.frontier, item.format.digest d = .ok item.digest

/-- As many nodes are put on the frontier as are found. -/
def Grows (st st' : MarkState) : Prop :=
  ∃ n, st'.seenPaths.length = st.seenPaths.length + n ∧
    st'.frontier.length = st.frontier.length + n

variable {roots done : List (Cid × Cid)} {rest frontier others : List FrontierNode}
  {loaded : List Node} {first : FrontierNode}

/-- A node is taken up: it is live now, and its children are found. -/
theorem Inv.visit (hinv : Inv d nodes roots (item :: rest) st done)
    (hseen : st1.seenPaths = st.seenPaths) (hfrontier : st1.frontier = st.frontier)
    (hlives : ∀ cid, cid ∈ st1.liveCids ↔ cid = item.cid ∨ cid ∈ st.liveCids)
    (hnodup : st1.liveCids.Nodup) (hfinds : Finds st1 (pathChildren nodes item.path) new st2)
    (hnew : ∀ i ∈ new, i.format.digest d = .ok i.digest) :
    Inv d nodes roots rest st2 (item.path :: done) ∧ Grows st st2 := by
  have heq := hfinds.eq_push
  have hseen' : st2.seenPaths = (new.map FrontierNode.path).reverse ++ st.seenPaths := by
    rw [heq, push, hseen]
  have hfrontier' : st2.frontier = st.frontier ++ new := by rw [heq, push, hfrontier]
  have hlive' : st2.liveCids = st1.liveCids := by rw [heq, push]
  have hmem := hfinds.mem
  rw [hseen] at hmem
  have hmarks : Marks (pathChildren nodes) roots st.seenPaths
    (item.path :: (rest ++ st.frontier).map FrontierNode.path) done := hinv.marks
  refine ⟨⟨hmarks.step (fun path => ?_) (fun path => ?_), fun cid => ?_, ?_, ?_, ?_⟩,
    new.length, ?_, ?_⟩
  · rw [hseen', mem_append, mem_reverse, hmem]
    tauto
  · simp only [hfrontier', map_append, mem_append, hmem]
    tauto
  · rw [hlive', hlives, hinv.live]
    simp only [mem_cons, FrontierNode.path, Prod.mk.injEq]
    constructor
    · rintro (rfl | ⟨digest, hdone⟩)
      · exact ⟨item.digest, .inl ⟨rfl, rfl⟩⟩
      · exact ⟨digest, .inr hdone⟩
    · rintro ⟨digest, ⟨rfl, -⟩ | hdone⟩
      · exact .inl rfl
      · exact .inr ⟨digest, hdone⟩
  · rwa [hlive']
  · rw [hseen', nodup_append']
    refine ⟨nodup_reverse.mpr hfinds.nodup, hinv.seenNodup, fun path hnew hold => ?_⟩
    exact ((hmem path).mp (mem_reverse.mp hnew)).2 hold
  · rw [hfrontier', ← append_assoc]
    refine forall_mem_append.mpr ⟨fun i hi => ?_, hnew⟩
    exact hinv.digests i (.tail _ hi)
  · rw [hseen']
    simp [Nat.add_comm]
  · rw [hfrontier']
    simp

theorem pathChildren_leaf (hload : loadForFormat d nodes format item.cid = .ok node)
    (hleaf : node.leaf = true) : pathChildren nodes item.path = [] := by
  simp [pathChildren, FrontierNode.path, storedChildren_of_store (storeOf_of_load hload), hleaf]

/-- The children of a loaded node, on the same path. -/
theorem findChildren_load (hload : loadForFormat d nodes item.format item.cid = .ok node)
    (hleaf : node.leaf = false) (hdigest : item.format.digest d = .ok item.digest)
    (h : st.findChildren limits item.format item.digest node.vals = .ok st1) :
    ∃ new, Finds st (pathChildren nodes item.path) new st1 ∧
      ∀ i ∈ new, i.format.digest d = .ok i.digest := by
  obtain ⟨new, hfinds, hitems⟩ := findChildren_ok h
  refine ⟨new, ?_, fun i hi => ?_⟩
  · simpa [pathChildren, FrontierNode.path, storedChildren_of_store (storeOf_of_load hload),
      hleaf] using hfinds
  · rw [(hitems i hi).1, (hitems i hi).2, hdigest]

theorem Inv.markNode (hinv : Inv d nodes roots (item :: rest) st done)
    (hload : loadForFormat d nodes item.format item.cid = .ok node)
    (h : st.markNode d limits item.format item.cid node = .ok st1) :
    Inv d nodes roots rest st1 (item.path :: done) ∧ Grows st st1 := by
  unfold MarkState.markNode at h
  split at h
  · cases h
  · split at h
    · cases h
    · next st' hlive =>
      obtain ⟨hseen, hfrontier, hlives, hnodup⟩ := markLive_ok hlive
      have hdigest := hinv.digests item mem_cons_self
      split at h
      · next hleaf =>
        cases h
        have hnone : Finds st1 (pathChildren nodes item.path) [] st1 := by
          rw [pathChildren_leaf hload hleaf]
          exact .refl
        exact hinv.visit hseen hfrontier hlives (hnodup hinv.liveNodup) hnone (by simp)
      · next hleaf =>
        rw [hdigest] at h
        obtain ⟨new, hfinds, hnew⟩ := findChildren_load hload (Bool.not_eq_true _ ▸ hleaf) hdigest h
        exact hinv.visit hseen hfrontier hlives (hnodup hinv.liveNodup) hfinds hnew

theorem mapM_load {items : List FrontierNode}
    (h : (items.mapM fun item => loadForFormat d nodes format item.cid) = .ok loaded) :
    (items.zip loaded).map Prod.fst = items ∧
      ∀ pair ∈ items.zip loaded, loadForFormat d nodes format pair.1.cid = .ok pair.2 := by
  induction items generalizing loaded with
  | nil =>
    cases h
    simp
  | cons item items ih =>
    rw [mapM_cons] at h
    obtain ⟨node, hnode, h⟩ := of_bind h
    obtain ⟨rest, hrest, h⟩ := of_bind h
    cases h
    obtain ⟨hitems, hloads⟩ := ih hrest
    exact ⟨by simp [hitems], forall_mem_cons.mpr ⟨hnode, hloads⟩⟩

/-- The nodes of the frontier with one format are taken up, the others stay. -/
theorem Inv.batch (hinv : Inv d nodes roots [] st done) (format : TreeFormat) :
    Inv d nodes roots (st.frontier.filter fun item => item.format = format)
      { st with frontier := st.frontier.filter fun item => item.format ≠ format } done := by
  have hmem : ∀ item, item ∈ (st.frontier.filter fun item => item.format = format) ++
      (st.frontier.filter fun item => item.format ≠ format) ↔ item ∈ st.frontier := by
    intro item
    by_cases hitem : item.format = format <;> simp [hitem]
  refine ⟨hinv.marks.reorder fun path => ?_, hinv.live, hinv.liveNodup, hinv.seenNodup,
    fun item hitem => hinv.digests item ((hmem item).mp hitem)⟩
  simp only [mem_map, hmem, nil_append]

/-- Of a loaded batch every node has the format it was loaded for. -/
theorem format_of_mem_batch
    (hitems : ((frontier.filter fun item => item.format = format).zip loaded).map Prod.fst =
      frontier.filter fun item => item.format = format) :
    ∀ pair ∈ (frontier.filter fun item => item.format = format).zip loaded,
      pair.1.format = format := by
  intro pair hpair
  have hitem : pair.1 ∈ frontier.filter fun item => item.format = format :=
    hitems ▸ mem_map_of_mem hpair
  simpa using (mem_filter.mp hitem).2

theorem deferred_length_lt (hfirst : frontier = first :: others) :
    (frontier.filter fun item => item.format ≠ first.format).length < frontier.length :=
  length_filter_lt_length_iff_exists.mpr ⟨first, hfirst ▸ mem_cons_self, by simp⟩

/-- The paths there are: of the roots, and of children in the store with the format of a
root. -/
def allPaths (nodes : NodeBytes) (roots : List (Cid × Cid)) : List (Cid × Cid) :=
  roots ++ roots.flatMap fun root =>
    (nodes.entries.flatMap fun entry => childrenIn entry.2).map (·, root.2)

theorem Inv.seen_le (hinv : Inv d nodes roots rest st done) :
    st.seenPaths.length ≤ (allPaths nodes roots).length := by
  refine (subperm_of_subset hinv.seenNodup fun path hpath => ?_).length_le
  obtain ⟨root, hroot, hreach⟩ := hinv.marks.reachable path hpath
  cases hreach with
  | refl => exact mem_append_left _ hroot
  | @tail parent path hparent hstep =>
    obtain ⟨child, hchild, rfl⟩ := mem_map.mp hstep
    refine mem_append_right _ (mem_flatMap.mpr ⟨root, hroot, ?_⟩)
    rw [(below_of_paths hparent).2]
    refine mem_map_of_mem (mem_flatMap.mpr ?_)
    unfold storedChildren at hchild
    split at hchild
    · cases hchild
    · next bytes hbytes => exact ⟨_, nodes.mem_entries.mpr hbytes, hchild⟩

end MarkState

/-! ### Runs of a walk -/

/-- A walk keeps `Inv`, which is about the rest of the batch and what has been taken up: when it
takes up a node and when it starts a batch. There are at most `bound` paths to find. -/
structure NodeWalk.Keeps {σ ε : Type} (w : NodeWalk σ ε) (d : Digests) (nodes : NodeBytes)
    (bound : Nat) (Inv : List FrontierNode → σ → List (Cid × Cid) → Prop) : Prop where
  visit : ∀ {item rest st st1 node done}, Inv (item :: rest) st done →
    loadForFormat d nodes item.format item.cid = .ok node →
    w.visit item.format item node st = .ok st1 →
    Inv rest st1 (item.path :: done) ∧ MarkState.Grows (w.marks st) (w.marks st1)
  batch : ∀ {st done} (format : TreeFormat), Inv [] st done →
    Inv ((w.marks st).frontier.filter fun item => item.format = format)
      (w.defer ((w.marks st).frontier.filter fun item => item.format ≠ format) st) done
  bound : ∀ {st done}, Inv [] st done → (w.marks st).seenPaths.length ≤ bound

namespace NodeWalk.Keeps

variable {σ ε : Type} {w : NodeWalk σ ε} {bound : Nat} {st st1 : σ} {done : List (Cid × Cid)}
  {Inv : List FrontierNode → σ → List (Cid × Cid) → Prop}

theorem visitAll (hw : w.Keeps d nodes bound Inv) {batch : List (FrontierNode × Node)}
    (hinv : Inv (batch.map Prod.fst) st done)
    (hformat : ∀ pair ∈ batch, pair.1.format = format)
    (hload : ∀ pair ∈ batch, loadForFormat d nodes format pair.1.cid = .ok pair.2)
    (h : w.visitAll format batch st = .ok st1) :
    (∃ done', Inv [] st1 done') ∧ MarkState.Grows (w.marks st) (w.marks st1) := by
  induction batch generalizing st done with
  | nil =>
    cases h
    exact ⟨⟨done, hinv⟩, 0, rfl, rfl⟩
  | cons pair batch ih =>
    obtain ⟨item, node⟩ := pair
    unfold NodeWalk.visitAll at h
    split at h
    · cases h
    · next st' hnode =>
      obtain ⟨rfl, hformats⟩ := forall_mem_cons.mp hformat
      obtain ⟨hload, hloads⟩ := forall_mem_cons.mp hload
      obtain ⟨hinv', n, hseen, hfrontier⟩ := hw.visit hinv hload hnode
      obtain ⟨hdone, m, hseen', hfrontier'⟩ := ih hinv' hformats hloads h
      exact ⟨hdone, n + m, by omega, by omega⟩

/-- The paths not found yet count twice, those on the frontier once. -/
def measure (w : NodeWalk σ ε) (bound : Nat) (st : σ) : Nat :=
  2 * (bound - (w.marks st).seenPaths.length) + (w.marks st).frontier.length

/-- An iteration keeps the invariant, and takes at least one node off the frontier. -/
theorem step (hw : w.Keeps d nodes bound Inv) (hinv : ∃ done, Inv [] st done)
    (h : w.step d nodes st = some (.ok st1)) :
    (∃ done, Inv [] st1 done) ∧ measure w bound st1 < measure w bound st := by
  obtain ⟨done, hinv⟩ := hinv
  unfold NodeWalk.step at h
  split at h
  · cases h
  · next first others hfirst =>
    unfold NodeWalk.batch at h
    dsimp only at h
    split at h
    · cases h
    · next loaded hloaded =>
      obtain ⟨hitems, hloads⟩ := MarkState.mapM_load hloaded
      have hstart := hw.batch first.format hinv
      rw [← hitems] at hstart
      obtain ⟨⟨done', hdone⟩, n, hseen, hfrontier⟩ := hw.visitAll hstart
        (MarkState.format_of_mem_batch hitems) hloads (Option.some.inj h)
      have hless := MarkState.deferred_length_lt hfirst
      have hbound := hw.bound hdone
      rw [w.marks_defer] at hseen hfrontier
      dsimp only at hseen hfrontier
      refine ⟨⟨done', hdone⟩, ?_⟩
      unfold measure
      omega

/-- Every large enough bound computes the loop, and when it succeeds nothing is pending. -/
theorem run (hw : w.Keeps d nodes bound Inv) (hinv : ∃ done, Inv [] st done) :
    ∃ result, (Enough fun fuel => WhileLoop.run (w.step d nodes) fuel st = some result) ∧
      ∀ st', result = .ok st' → (w.marks st').frontier = [] ∧ ∃ done, Inv [] st' done := by
  obtain ⟨result, hresult, hdone⟩ := WhileLoop.enough (fun _ _ => hw.step) hinv
  refine ⟨result, hresult, fun st' hok => ?_⟩
  obtain ⟨hinv', hend⟩ := hdone st' hok
  refine ⟨?_, hinv'⟩
  unfold NodeWalk.step at hend
  split at hend
  · next hfrontier => exact hfrontier
  · cases hend

end NodeWalk.Keeps

@[simp] theorem mem_sortCids {cids : List Cid} : cid ∈ sortCids cids ↔ cid ∈ cids :=
  (perm_insertionSort _ _).mem_iff

namespace MarkState

variable {d : Digests} {limits : GcTraversalLimits} {nodes : NodeBytes} {st : MarkState}
  {roots : List Tree}

/-- The invariant holds once the roots are found. -/
theorem Inv.start (nodes : NodeBytes) (h : findRoots d limits roots {} = .ok st) :
    Inv d nodes (rootPaths d roots) [] st [] := by
  obtain ⟨⟨new, hfinds, hdigests⟩, -⟩ := findRoots_ok h
  have heq := hfinds.eq_push
  have hseen : st.seenPaths = (new.map FrontierNode.path).reverse := by simp [heq, push]
  have hfrontier : st.frontier = new := by simp [heq, push]
  refine ⟨?_, ?_, ?_, ?_, ?_⟩
  · refine (Marks.start fun path => ?_).reorder fun path => ?_
    · rw [hseen, mem_reverse, hfinds.mem]
      simp
    · rw [hseen, hfrontier, nil_append, mem_reverse]
  · simp [heq, push]
  · simp [heq, push]
  · rw [hseen]
    exact nodup_reverse.mpr hfinds.nodup
  · rw [hfrontier]
    exact hdigests

/-- When nothing is pending, the nodes of the trees have been taken up and no others. -/
theorem Inv.done_iff {st0 : MarkState} {done : List (Cid × Cid)}
    (hroots : findRoots d limits roots {} = .ok st0)
    (hinv : Inv d nodes (rootPaths d roots) [] st done) (hfrontier : st.frontier = []) (cid : Cid) :
    (∃ digest, (cid, digest) ∈ done) ↔ Reachable nodes roots cid := by
  obtain ⟨-, hpaths⟩ := findRoots_ok hroots
  have hmarks := hinv.marks
  rw [hfrontier] at hmarks
  constructor
  · rintro ⟨digest, hpath⟩
    obtain ⟨⟨root, digest'⟩, hroot, hreach⟩ := (hmarks.done_iff _).mp hpath
    obtain ⟨tree, htree, hbind⟩ := mem_filterMap.mp hroot
    obtain ⟨root', hroot', hmap⟩ := Option.bind_eq_some_iff.mp hbind
    obtain ⟨digest'', -, hpair⟩ := Option.map_eq_some_iff.mp hmap
    cases hpair
    exact ⟨tree, htree, root, hroot', (below_of_paths hreach).1⟩
  · rintro ⟨tree, htree, root, hroot, hbelow⟩
    obtain ⟨digest, hpath⟩ := hpaths tree htree root hroot
    exact ⟨digest, (hmarks.done_iff _).mpr ⟨_, hpath, paths_of_below hbelow digest⟩⟩

end MarkState

/-- The walk ends, and when it succeeds it has marked the nodes of the trees, each once. -/
theorem markReachable_exact (d : Digests) (nodes : NodeBytes) (roots : List Tree) :
    ∃ result, (Enough fun fuel => markReachable d nodes roots fuel = some result) ∧
      ∀ reachability, result = .ok reachability →
        ∀ cid, cid ∈ reachability.liveCids ↔ Reachable nodes roots cid := by
  have hlimits : ¬(u64Max = 0 ∨ u64Max = 0) := by simp [u64Max]
  simp only [markReachable, markReachableWithLimits, if_neg hlimits]
  cases hroots : MarkState.findRoots d ⟨u64Max, u64Max⟩ roots {} with
  | error error => exact ⟨.error error, .of_forall fun _ => rfl, nofun⟩
  | ok st =>
    have hkeeps : (MarkState.walk d ⟨u64Max, u64Max⟩).Keeps d nodes _
        (MarkState.Inv d nodes (MarkState.rootPaths d roots)) :=
      ⟨MarkState.Inv.markNode, fun format hinv => hinv.batch format, MarkState.Inv.seen_le⟩
    obtain ⟨result, hresult, hdone⟩ := hkeeps.run ⟨[], MarkState.Inv.start nodes hroots⟩
    refine ⟨_, hresult.mono fun fuel hfuel => by simp only [hfuel]; rfl, ?_⟩
    intro reachability hok cid
    cases result with
    | error error => cases hok
    | ok st' =>
      cases hok
      obtain ⟨hfrontier, done, hinv⟩ := hdone st' rfl
      rw [mem_sortCids, hinv.live]
      exact hinv.done_iff hroots hfrontier cid

/-! ### Reads after a sweep -/

section Reads

variable {d : Digests} {format : TreeFormat} {nodes nodes' : NodeBytes} {cid root : Cid}
  {node : Node}

theorem loadArc_congr (h : nodes'.get? cid.bytes = nodes.get? cid.bytes) :
    (readerOf d format nodes').loadArc cid = (readerOf d format nodes).loadArc cid := by
  unfold Manager.loadArc readerOf storeOf
  simp only [h]

/-- A descent goes to a child. -/
theorem childCid_mem {child : Cid} {index : Nat}
    (h : (readerOf d format nodes).loadArc cid = .ok node) (hleaf : node.leaf = false)
    (hchild : node.childCid index = .ok child) : child ∈ storedChildren nodes cid := by
  rw [storedChildren_of_store (Manager.loadArc_eq_ok.mp h).1, hleaf]
  unfold Node.childCid childCidFromBytes at hchild
  split at hchild
  · cases hchild
  · next value hvalue =>
    split at hchild
    · cases hchild
    · next cid' hcid =>
      cases hchild
      exact mem_filterMap.mpr ⟨value, mem_of_getElem? hvalue, hcid⟩

/-- A point read is the same in a store with the same nodes below the root. -/
theorem getFrom_congr {key : Bytes}
    (h : ∀ cid, Below nodes root cid → nodes'.get? cid.bytes = nodes.get? cid.bytes) (fuel : Nat) :
    (readerOf d format nodes').getFrom fuel root key =
      (readerOf d format nodes).getFrom fuel root key := by
  induction fuel generalizing root with
  | zero => rfl
  | succ fuel ih =>
    unfold Manager.getFrom
    rw [loadArc_congr (h root .refl)]
    cases hnode : (readerOf d format nodes).loadArc root with
    | error error => rfl
    | ok node =>
      simp only [ok_bind]
      split
      · rfl
      · split
        · rfl
        · next hleaf =>
          cases hchild : node.childCid (Manager.childIndex node key) with
          | error error => rfl
          | ok child =>
            have hmem := childCid_mem hnode (Bool.not_eq_true _ ▸ hleaf) hchild
            exact ih fun cid hcid => h cid (ReflTransGen.head hmem hcid)

/-- A tree is the same in a store with the same nodes below its root. -/
theorem Subtree.congr {level : Nat} {es : List Entry}
    (hsub : Subtree (readerOf d format nodes) level root es)
    (h : ∀ cid, Below nodes root cid → nodes'.get? cid.bytes = nodes.get? cid.bytes) :
    Subtree (readerOf d format nodes') level root es := by
  induction level generalizing root es with
  | zero =>
    obtain ⟨node, hnode, hleaf⟩ := hsub
    exact ⟨node, (loadArc_congr (h root .refl)).trans hnode, hleaf⟩
  | succ level ih =>
    obtain ⟨node, kids, hnode, hint, hes, hkids⟩ := hsub
    refine ⟨node, kids, (loadArc_congr (h root .refl)).trans hnode, hint, hes, fun c hc => ?_⟩
    refine ih (hkids c hc) fun cid hcid => h cid (ReflTransGen.head ?_ hcid)
    rw [storedChildren_of_store (Manager.loadArc_eq_ok.mp hnode).1, hint.leaf, hint.vals]
    exact mem_filterMap.mpr ⟨c.cid.bytes, mem_map_of_mem hc, Cid.ofBytes_bytes _⟩

end Reads

/-! ### Sweeps -/

theorem get?_deleteNodes (nodes : NodeBytes) (cids : List Cid) (key : Bytes) :
    (deleteNodes nodes cids).get? key =
      if key ∈ cids.map Cid.bytes then none else nodes.get? key := by
  unfold deleteNodes
  induction cids generalizing nodes with
  | nil => simp
  | cons cid cids ih =>
    rw [foldl_cons, ih, SortedMap.get?_erase]
    grind

/-- For every store, trees and candidates: a sweep ends, and when it succeeds it has removed the
candidates that are stored and not nodes of the trees, each counted once, and no other key; so
that every tree reads and holds what it did. -/
theorem sweepGc_exact (d : Digests) (nodes : NodeBytes) (roots : List Tree)
    (candidates : List Cid) :
    ∃ result, (Enough fun fuel => sweepGc d nodes roots candidates fuel = some result) ∧
      ∀ sweep nodes', result = .ok (sweep, nodes') →
        (∃ removed : List Cid, removed.Nodup ∧ sweep.deletedNodes = removed.length ∧
          (∀ cid, cid ∈ removed ↔ cid ∈ candidates ∧ (nodes.get? cid.bytes).isSome ∧
            ¬Reachable nodes roots cid) ∧
          ∀ key, nodes'.get? key =
            if key ∈ removed.map Cid.bytes then none else nodes.get? key) ∧
        ∀ tree ∈ roots,
          (∀ fuel key, (readerOf d tree.format nodes').get fuel tree key =
            (readerOf d tree.format nodes).get fuel tree key) ∧
          ∀ es, Holds (readerOf d tree.format nodes) tree.root es →
            Holds (readerOf d tree.format nodes') tree.root es := by
  obtain ⟨result, hresult, hlive⟩ := markReachable_exact d nodes roots
  refine ⟨_, hresult.mono fun fuel hfuel => by simp only [sweepGc, planGc, hfuel]; rfl, ?_⟩
  intro sweep nodes' hok
  cases result with
  | error error => cases hok
  | ok reachability =>
    cases hok
    have hmem : ∀ cid, cid ∈ (GcPlan.of nodes candidates reachability).reclaimableCids ↔
        cid ∈ candidates ∧ (nodes.get? cid.bytes).isSome ∧ ¬Reachable nodes roots cid := by
      intro cid
      simp only [GcPlan.of, mem_sortCids, mem_filter, mem_dedup, decide_eq_true_eq,
        hlive reachability rfl]
      tauto
    have hkept : ∀ cid, Reachable nodes roots cid →
        (deleteNodes nodes (GcPlan.of nodes candidates reachability).reclaimableCids).get?
          cid.bytes = nodes.get? cid.bytes := by
      intro cid hcid
      rw [get?_deleteNodes, if_neg]
      intro hbytes
      obtain ⟨cid', hcid', hsame⟩ := mem_map.mp hbytes
      obtain rfl : cid' = cid := Cid.ext hsame
      exact ((hmem cid').mp hcid').2.2 hcid
    refine ⟨⟨_, ?_, ?_, hmem, get?_deleteNodes nodes _⟩, fun tree htree => ⟨fun fuel key => ?_,
      fun es hholds => ?_⟩⟩
    · refine (perm_insertionSort _ _).nodup_iff.mpr ?_
      exact ((nodup_dedup candidates).filter _).filter _
    · exact (length_insertionSort _ _).symm
    · unfold Manager.get
      split
      · rfl
      · next root hroot =>
        exact getFrom_congr (fun cid hcid => hkept cid ⟨tree, htree, root, hroot, hcid⟩) fuel
    · cases hroot : tree.root with
      | none =>
        rw [hroot] at hholds
        exact hholds
      | some root =>
        rw [hroot] at hholds
        obtain ⟨level, hsub⟩ := hholds
        exact ⟨level, hsub.congr fun cid hcid => hkept cid ⟨tree, htree, root, hroot, hcid⟩⟩

-- a sweep over two leaves, of which a tree refers to one
example :
    let d : Digests := ⟨fun bytes => .filled bytes.length.toUInt8, fun _ _ => 0⟩
    let kept : Node := { keys := [[97]], vals := [[49]] }
    let garbage : Node := { keys := [[98]], vals := [[50, 50]] }
    let nodes : NodeBytes := (SortedMap.empty.insert (kept.cid d).bytes kept.toBytes).insert
      (garbage.cid d).bytes garbage.toBytes
    ((sweepGc d nodes [⟨some (kept.cid d), {}⟩] [kept.cid d, garbage.cid d] 2).map fun result =>
      result.toOption.map fun (sweep, nodes') => (sweep.deletedNodes, nodes'.entries)) =
      some (some (1, [((kept.cid d).bytes, kept.toBytes)])) := by decide +kernel

end Prolly
