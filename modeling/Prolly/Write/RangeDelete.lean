import Prolly.Scan.Path
import Prolly.Write.Basic

/-!
# Prolly.Write.RangeDelete

Deletion of the keys in a half-open range (`range_delete.rs`).

In a tree of height two the leaves around the range are streamed through a fresh
emitter without the deleted entries, until the emitter is aligned with an old leaf;
the parents of the touched window are rebuilt and spliced into the root. Where that
gives up, all entries outside the range go through a `SortedBatchBuilder`.

The splice keeps exactly the entries outside the range (`tryLocalizedHeightTwo_effect`):
an emitter that is aligned with a leaf has taken all of its entries, so that the range
lies behind it. The rebuild does so where the builder keeps its order
(`deleteRange_exact`).
-/

namespace Prolly

open SortedAssoc
open List

variable (d : Digests) (p : Manager) (fuel : Nat) (tree : Tree) (start stop : Bytes)

/-- `key >= start && key < end`. -/
def inDeleted (key : Bytes) : Bool := decide (start ≤ key) && decide (key < stop)

/-- The entries outside the range. -/
def keepOutside (es : List Entry) : List Entry :=
  es.filter fun e => !inDeleted start stop e.1

/-! ### Trees of height two -/

/-- The leaves below the window nodes; `none` where a node is not what its parent says. -/
def windowLeaves (format : TreeFormat) : List Node → List Nat → Result (Option (List NodeSummary))
  | [], _ => .ok (some [])
  | node :: nodes, counts =>
    if node.leaf ∨ node.level ≠ 1 ∨ node.format ≠ format ∨ node.validate ≠ .ok () then .ok none
    else do
      let total ← checkedU64 node.childCounts.sum
      if counts.head? ≠ some total then return none
      else
        let leaves ← node.childSummaries
        match ← windowLeaves format nodes counts.tail with
        | none => return none
        | some rest => return some (leaves ++ rest)

/-- Where the stream over the window leaves stands. The number of deleted entries is only
compared with zero. -/
structure Splice where
  emitter : LeafEmitter
  deleted : Nat
  after : List NodeSummary
  resynced : Bool

/-- The loop over the window leaves. A leaf inside the range is not loaded. -/
def spliceLeaves (p : Manager) (format : TreeFormat) (start stop : Bytes) :
    List NodeSummary → LeafEmitter → Nat → Result Splice
  | [], e, deleted => .ok ⟨e, deleted, [], false⟩
  | old :: olds, e, deleted =>
    if start ≤ old.firstKey ∧ ∃ next ∈ olds.head?, next.firstKey ≤ stop then
      spliceLeaves p format start stop olds e (deleted + old.count)
    else do
      let leaf ← p.loadArc old.cid
      if ¬ leaf.leaf ∨ leaf.level ≠ 0 ∨ leaf.format ≠ format ∨ leaf.validate ≠ .ok () then
        .error .invalidNode
      else
        let deleted := deleted + leaf.keys.countP (inDeleted start stop)
        let e ← e.push p.digests (keepOutside start stop leaf.entries)
        if 0 < deleted ∧ e.isAlignedWith old then return ⟨e, deleted, olds, true⟩
        else spliceLeaves p format start stop olds e deleted

/-- The node with the children `i..j` replaced. -/
def Node.spliceChildren (n : Node) (i j : Nat) (ss : List NodeSummary) : Node :=
  { n with
    keys := n.keys.take i ++ ss.map NodeSummary.firstKey ++ n.keys.drop j
    vals := n.vals.take i ++ ss.map (·.cid.bytes) ++ n.vals.drop j
    childCounts := n.childCounts.take i ++ ss.map NodeSummary.count ++ n.childCounts.drop j }

/-- The new root over these children and the node rebuilt for it: one child stands for itself. -/
def rebuiltRoot (format : TreeFormat) (updated : Node) : Result (Option (Cid × List EmittedNode)) :=
  if updated.len = 1 then do
    let cid ← updated.childCid 0
    return some (cid, [])
  else do
    let children ← updated.childSummaries
    let out ← buildLevelSerial d format children 2
    match out with
    | [root] => return if root.node = updated then some (root.summary.cid, [root]) else none
    | _ => return none

/-- The new root of a spliced tree. -/
def splicedRoot (format : TreeFormat) (updated : Node) : Result (Option (Cid × List EmittedNode)) :=
  if updated.validate ≠ .ok () ∨ format.chunking.max.toNat < updated.len ∨
      format.chunking.hardMaxNodeBytes.toNat < updated.toBytes.length then .ok none
  else rebuiltRoot d format updated

theorem splicedRoot_some {d : Digests} {format : TreeFormat} {updated : Node}
    {result : Cid × List EmittedNode} (h : splicedRoot d format updated = .ok (some result)) :
    rebuiltRoot d format updated = .ok (some result) := by
  rw [splicedRoot] at h
  split at h
  · cases h
  · exact h

/-- Each node once, unless its identifier is among those seen. -/
def unwritten (d : Digests) : List Cid → List Node → List Node
  | _, [] => []
  | seen, n :: ns =>
    if n.cid d ∈ seen then unwritten d seen ns else n :: unwritten d (n.cid d :: seen) ns

/-- The nodes the splice hands to the store: new leaves, new parents, a new root. -/
def spliceWrites (rootCid : Cid) (oldLeaves : List NodeSummary) (windowCids : List Cid)
    (leaves parents roots : List EmittedNode) : List Node :=
  let leaves := unwritten d (oldLeaves.map NodeSummary.cid) (leaves.map EmittedNode.node)
  let parents := unwritten d (windowCids ++ leaves.map (Node.cid d)) (parents.map EmittedNode.node)
  let roots := unwritten d (rootCid :: (leaves ++ parents).map (Node.cid d))
    (roots.map EmittedNode.node)
  leaves ++ parents ++ roots

def spliceWindow (rootCid : Cid) (root : Node) (windowStart windowEnd : Nat) (windowCids : List Cid)
    (oldLeaves : List NodeSummary) : Result (Option Written) := do
  let replayStart := partitionPoint (fun leaf => decide (leaf.firstKey ≤ start)) oldLeaves - 2
  let e ← LeafEmitter.new tree.format
  let r ← spliceLeaves p tree.format start stop (oldLeaves.drop replayStart) e 0
  if r.deleted = 0 then return some (.unchanged tree)
  else if !r.resynced ∧ windowEnd < root.len then return none
  else
    let e ← r.emitter.flush p.digests
    let replacement := oldLeaves.take replayStart ++ e.summaries ++ r.after
    let parents ← buildLevelSerial p.digests tree.format replacement 1
    let summaries := parents.map EmittedNode.summary
    if summaries = [] ∨
        windowEnd < root.len ∧ summaries.getLast?.map NodeSummary.cid ≠ windowCids.getLast? then
      return none
    else
      match ← splicedRoot p.digests tree.format
        (root.spliceChildren windowStart windowEnd summaries) with
      | none => return none
      | some (newRoot, roots) =>
        return some
          { tree := { tree with root := some newRoot }
            nodes := (e.emitted ++ parents ++ roots).map EmittedNode.node
            writes := spliceWrites p.digests rootCid oldLeaves windowCids e.emitted parents roots }

/-- `try_localized_height_two`. -/
def tryLocalizedHeightTwo : Result (Option Written) :=
  if ¬ tree.format.nodeLayout.BuiltIn then .ok none
  else
    match tree.root with
    | none => .ok none
    | some rootCid => do
        let root ← p.loadArc rootCid
        if root.format ≠ tree.format then .error .formatMismatch
        else if root.leaf ∨ root.level ≠ 2 ∨ root.keys = [] ∨ root.validate ≠ .ok () then
          return none
        else
          let windowStart := root.childFor start - 1
          let windowEnd := min (root.childFor stop + 3) root.len
          if windowEnd ≤ windowStart then return none
          else
            let windowCids ← ((root.vals.take windowEnd).drop windowStart).mapM childCidFromBytes
            let windowNodes ← windowCids.mapM p.loadArc
            match ← windowLeaves tree.format windowNodes (root.childCounts.drop windowStart) with
            | none => return none
            | some oldLeaves =>
              if oldLeaves = [] ∨ ¬ (oldLeaves.map NodeSummary.firstKey).IsChain (· < ·) then
                return none
              else
                spliceWindow p tree start stop rootCid root windowStart windowEnd windowCids
                  oldLeaves

/-! ### Trees of any height -/

/-- The way down of `range_has_entry`: the leaf `start` belongs to, and the way back. -/
def probeLeaf (p : Manager) (start : Bytes) :
    Nat → List PathFrame → Cid → Result (Node × List PathFrame)
  | 0, _, _ => .error .outOfFuel
  | fuel + 1, ancestors, cid => do
      let node ← p.loadArc cid
      if node.isEmpty then .error .invalidNode
      else if node.leaf then return (node, ancestors)
      else
        let index := node.childFor start
        probeLeaf p start fuel (⟨node, index⟩ :: ancestors) (← node.childCid index)

def firstLeaf (p : Manager) : Nat → Cid → Result Node
  | 0, _ => .error .outOfFuel
  | fuel + 1, cid => do
      let node ← p.loadArc cid
      if node.isEmpty then .error .invalidNode
      else if node.leaf then return node
      else firstLeaf p fuel (← node.childCid 0)

/-- Up to the next leaf: whether it starts inside the range. -/
def probeNext (p : Manager) (fuel : Nat) (stop : Bytes) : List PathFrame → Result Bool
  | [] => .ok false
  | ⟨node, index⟩ :: ancestors =>
    if node.len ≤ index + 1 then probeNext p fuel stop ancestors
    else do
      let leaf ← firstLeaf p fuel (← node.childCid (index + 1))
      return (leaf.keys.head?.map fun key => decide (key < stop)).getD false

/-- `range_has_entry`. -/
def rangeHasEntry : Result Bool :=
  match tree.root with
  | none => .ok false
  | some root => do
      let (leaf, ancestors) ← probeLeaf p start fuel [] root
      match leaf.keys[partitionPoint (fun key => decide (key < start)) leaf.keys]? with
      | some key => return decide (key < stop)
      | none => probeNext p fuel stop ancestors

/-- One node of `collect_entries`: the children it pushes and the entries it adds. -/
def collectNode (cid : Cid) : Result (List Cid × List Entry) := do
  let node ← p.loadArc cid
  if node.leaf then
    if node.keys.length ≠ node.vals.length then .error .invalidNode else return ([], node.entries)
  else return (← node.vals.mapM childCidFromBytes, [])

/-- `collect_entries`. -/
def collectEntries : Result (List Entry) :=
  StackLoop.run .outOfFuel (collectNode p) fuel tree.root.toList

/-- The rebuild from the entries outside the range. The builder writes what it emits. -/
def rebuildOutside : Result Written := do
  let entries ← collectEntries p fuel tree
  let (root, out) ← buildSorted p.digests tree.format (keepOutside start stop entries)
  return { tree := { tree with root }
           nodes := out.map EmittedNode.node
           writes := out.map EmittedNode.node }

/-- `range_delete::apply`. -/
def deleteRange : Result Written :=
  match tree.root with
  | none => .ok (.unchanged tree)
  | some rootCid =>
    if stop ≤ start then .ok (.unchanged tree)
    else do
      let root ← p.loadArc rootCid
      if root.format ≠ tree.format then .error .formatMismatch
      else
        match ← tryLocalizedHeightTwo p tree start stop with
        | some written => return written
        | none =>
          if ← rangeHasEntry p fuel tree start stop then rebuildOutside p fuel tree start stop
          else return .unchanged tree

/-! ### What is kept -/

section Kept

variable {start stop : Bytes} {es es' : List Entry} {key : Bytes}

theorem keepOutside_append (start stop : Bytes) (es es' : List Entry) :
    keepOutside start stop (es ++ es') = keepOutside start stop es ++ keepOutside start stop es' :=
  filter_append ..

theorem keepOutside_eq_self (h : ∀ x ∈ es, inDeleted start stop x.1 = false) :
    keepOutside start stop es = es :=
  filter_eq_self.mpr fun x hx => by simp [h x hx]

theorem keepOutside_eq_nil (h : ∀ x ∈ es, inDeleted start stop x.1 = true) :
    keepOutside start stop es = [] :=
  filter_eq_nil_iff.mpr fun x hx => by simp [h x hx]

theorem not_inDeleted_of_mem {x : Entry} (h : x ∈ keepOutside start stop es) :
    inDeleted start stop x.1 = false := by
  simpa using (mem_filter.mp h).2

theorem inDeleted_eq_true : inDeleted start stop key = true ↔ start ≤ key ∧ key < stop := by
  simp [inDeleted]

theorem not_inDeleted_of_lt (h : key < start) : inDeleted start stop key = false := by
  simp [inDeleted, h]

theorem not_inDeleted_of_le (h : stop ≤ key) : inDeleted start stop key = false := by
  simp [inDeleted, h]

/-- Behind a deleted key, a key that is kept lies behind the range. -/
theorem le_of_not_inDeleted {k : Bytes} (hk : inDeleted start stop k = true) (hlt : k < key)
    (hkey : inDeleted start stop key = false) : stop ≤ key := by
  by_contra h
  have := (inDeleted_eq_true.mp hk).1.trans hlt.le
  simp [inDeleted, this, not_le.mp h] at hkey

end Kept

/-! ### The stream over the window -/

section Stream

variable {p q : Manager} {start stop : Bytes} {e : LeafEmitter} {es l done : List Entry}
  {old : NodeSummary} {olds : List NodeSummary} {format : TreeFormat} {deleted : Nat} {r : Splice}

/-- An emitter that is aligned with a leaf was fed that leaf last. -/
theorem LeafEmitter.Fed.aligned (hext : Extends p q) (he : e.Fed p es) (hs : Sorted es)
    (hstored : ∀ n ∈ e.emitted, Stored q n.node) (hold : Forest q 0 [old] l)
    (halign : e.isAlignedWith old = true) : ∃ before, es = before ++ l := by
  obtain ⟨rest, hemits, hbuf⟩ := he.emits
  simp only [isAlignedWith, Bool.and_eq_true, hbuf.isEmpty, List.isEmpty_iff] at halign
  obtain ⟨rfl, hlast⟩ := halign
  obtain ⟨last, hget, hcid⟩ : ∃ last, e.emitted.getLast? = some last ∧
      last.summary.cid = old.cid := by
    cases hget : e.emitted.getLast? with
    | none => simp [hget] at hlast
    | some last => exact ⟨last, rfl, by simpa [hget] using hlast⟩
  obtain ⟨init, hinit⟩ := List.getLast?_eq_some_iff.mp hget
  rw [← hext.digests, ← hext.format] at hemits
  have hforest := hemits.leaves hs hstored
  rw [hinit, map_append] at hforest
  obtain ⟨es1, es2, rfl, -, hlastForest⟩ := hforest.split
  have hsub := hlastForest.singleton.1
  rw [hcid] at hsub
  exact ⟨es1, by rw [(hsub.unique hold.singleton.1).2]⟩

theorem Node.IsLeaf.countP_inDeleted {n : Node} (h : n.IsLeaf l) (start stop : Bytes) :
    n.keys.countP (inDeleted start stop) = 0 ↔ ∀ x ∈ l, inDeleted start stop x.1 = false := by
  simp [h.keys, countP_eq_zero]

/-- A leaf inside the range has only entries of the range. -/
theorem Forest.covered (hold : Forest q 0 [old] l) (hrest : Forest q 0 olds es)
    (hs : Sorted (l ++ es)) (h : start ≤ old.firstKey ∧ ∃ next ∈ olds.head?, next.firstKey ≤ stop) :
    ∀ x ∈ l, inDeleted start stop x.1 = true := by
  obtain ⟨hstart, next, hnext, hstop⟩ := h
  intro x hx
  have hle : old.firstKey ≤ x.1 := hold.firstKey_le (sorted_append.mp hs).1 x hx
  have hlt := ((hrest.nextFirst hs).1 next.firstKey (by rw [Option.mem_def.mp hnext]; rfl)).1 x hx
  exact inDeleted_eq_true.mpr ⟨hstart.trans hle, hlt.trans_le hstop⟩

theorem spliceLeaves_fed (he : e.Fed p done)
    (h : spliceLeaves p format start stop olds e deleted = .ok r) :
    ∃ done', r.emitter.Fed p done' := by
  induction olds generalizing e deleted done with
  | nil =>
    cases h
    exact ⟨done, he⟩
  | cons old olds ih =>
    rw [spliceLeaves] at h
    split at h
    · exact ih he h
    · obtain ⟨leaf, -, h⟩ := of_bind h
      split at h
      · cases h
      obtain ⟨e', hpush, h⟩ := of_bind h
      split at h
      · cases h
        exact ⟨_, he.push hpush⟩
      · exact ih (he.push hpush) h

/-- Nothing is deleted exactly when nothing lies in the range. -/
theorem spliceLeaves_deleted (holds : Forest p 0 olds es) (hs : Sorted es)
    (h : spliceLeaves p format start stop olds e deleted = .ok r) :
    r.deleted = 0 ↔ deleted = 0 ∧ ∀ x ∈ es, inDeleted start stop x.1 = false := by
  induction olds generalizing e deleted es with
  | nil =>
    cases h
    obtain rfl := holds.eq_nil_iff.mp rfl
    simp
  | cons old olds ih =>
    obtain ⟨l, es', rfl, hold, hrest⟩ := holds.cons
    obtain ⟨⟨n, hn, hleaf⟩, -, hcount⟩ := hold.singleton
    obtain ⟨-, hs', -⟩ := sorted_append.mp hs
    obtain ⟨x, hx⟩ := exists_mem_of_ne_nil l hleaf.nonempty
    rw [spliceLeaves] at h
    split at h
    · next hcovered =>
      have hall := hold.covered hrest hs hcovered x hx
      have hpos : ¬ deleted + old.count = 0 := by
        have := length_pos_of_mem hx
        omega
      rw [ih hrest hs' h]
      exact ⟨fun hr => absurd hr.1 hpos, fun hr => by simp [hr.2 x (mem_append_left _ hx)] at hall⟩
    · obtain ⟨leaf, hload, h⟩ := of_bind h
      obtain rfl : leaf = n := Except.ok.inj (hload.symm.trans hn)
      split at h
      · cases h
      obtain ⟨e', -, h⟩ := of_bind h
      have hsum : deleted + leaf.keys.countP (inDeleted start stop) = 0 ↔
          deleted = 0 ∧ ∀ x ∈ l, inDeleted start stop x.1 = false := by
        rw [← hleaf.countP_inDeleted]
        omega
      split at h
      · next haligned =>
        cases h
        have hpos := haligned.1
        refine ⟨fun hr => absurd hr (Nat.pos_iff_ne_zero.mp hpos), fun hr => ?_⟩
        exact hsum.mpr ⟨hr.1, fun x hx => hr.2 x (mem_append_left _ hx)⟩
      · rw [ih hrest hs' h, hsum, forall_mem_append, and_assoc]

/-- The loop keeps the entries outside the range up to some leaf, and behind that leaf there
is nothing to delete. -/
theorem spliceLeaves_spec (hext : Extends p q) (holds : Forest q 0 olds es)
    (hs : Sorted (done ++ es)) (he : e.Fed p done)
    (hdone : ∀ x ∈ done, inDeleted start stop x.1 = false)
    (hdeleted : 0 < deleted → ∃ k, inDeleted start stop k = true ∧ ∀ x ∈ es, k < x.1)
    (h : spliceLeaves p format start stop olds e deleted = .ok r)
    (hstored : ∀ n ∈ r.emitter.emitted, Stored q n.node) :
    ∃ es1 es2, es = es1 ++ es2 ∧ Forest q 0 r.after es2 ∧
      r.emitter.Fed p (done ++ keepOutside start stop es1) ∧
      ∀ x ∈ es2, inDeleted start stop x.1 = false := by
  induction olds generalizing e deleted done es with
  | nil =>
    cases h
    obtain rfl := holds.eq_nil_iff.mp rfl
    exact ⟨[], [], rfl, .nil, by simpa [keepOutside] using he, by simp⟩
  | cons old olds ih =>
    obtain ⟨l, es', rfl, hold, hrest⟩ := holds.cons
    obtain ⟨⟨n, hn, hleaf⟩, hfirst, hcount⟩ := hold.singleton
    obtain ⟨-, hses, -⟩ := sorted_append.mp hs
    obtain ⟨-, -, hll⟩ := sorted_append.mp hses
    rw [spliceLeaves] at h
    split at h
    · -- The whole leaf lies in the range.
      next hcovered =>
      have hall := hold.covered hrest hses hcovered
      obtain ⟨x, hx⟩ := exists_mem_of_ne_nil l hleaf.nonempty
      have hs' : Sorted (done ++ es') :=
        hs.sublist (List.Sublist.append_left (sublist_append_right l es') done)
      obtain ⟨es1, es2, rfl, hafter, hfed, hkept⟩ := ih hrest hs' he hdone
        (fun _ => ⟨x.1, hall x hx, fun y hy => hll x hx y hy⟩) h
      refine ⟨l ++ es1, es2, by simp, hafter, ?_, hkept⟩
      rwa [keepOutside_append, keepOutside_eq_nil hall, nil_append]
    · obtain ⟨leaf, hload, h⟩ := of_bind h
      obtain rfl : leaf = n := Except.ok.inj ((hext.loads _ _ hload).symm.trans hn)
      split at h
      · cases h
      rw [hleaf.entries_eq] at h
      obtain ⟨e', hpush, h⟩ := of_bind h
      have he' := he.push hpush
      have hdone' : ∀ x ∈ done ++ keepOutside start stop l, inDeleted start stop x.1 = false := by
        intro x hx
        rcases mem_append.mp hx with hx | hx
        · exact hdone x hx
        · exact not_inDeleted_of_mem hx
      have hs' : Sorted (done ++ keepOutside start stop l ++ es') := by
        rw [append_assoc]
        exact hs.sublist (List.Sublist.append_left
          (List.Sublist.append_right filter_sublist es') done)
      have hcountP := hleaf.countP_inDeleted start stop
      split at h
      · -- Aligned with this leaf: none of its entries was deleted, but an earlier one was.
        next haligned =>
        cases h
        obtain ⟨before, hbefore⟩ :=
          he'.aligned hext (sorted_append.mp hs').1 hstored hold haligned.2
        have hl : ∀ x ∈ l, inDeleted start stop x.1 = false := fun x hx =>
          hdone' x (hbefore ▸ mem_append_right _ hx)
        have hpos : 0 < deleted := by
          have := hcountP.mpr hl
          omega
        obtain ⟨k, hk, hlt⟩ := hdeleted hpos
        obtain ⟨y, hy⟩ := exists_mem_of_ne_nil l hleaf.nonempty
        have hstop := le_of_not_inDeleted hk (hlt y (mem_append_left _ hy)) (hl y hy)
        refine ⟨l, es', rfl, hrest, he', fun x hx => ?_⟩
        exact not_inDeleted_of_le (hstop.trans (hll y hy x hx).le)
      · have hdeleted' : 0 < deleted + leaf.keys.countP (inDeleted start stop) →
            ∃ k, inDeleted start stop k = true ∧ ∀ x ∈ es', k < x.1 := by
          intro hpos
          by_cases hd : 0 < deleted
          · obtain ⟨k, hk, hlt⟩ := hdeleted hd
            exact ⟨k, hk, fun x hx => hlt x (mem_append_right _ hx)⟩
          · have hne : ¬ ∀ x ∈ l, inDeleted start stop x.1 = false := fun hl => by
              have := hcountP.mpr hl
              omega
            push Not at hne
            obtain ⟨y, hy, hyd⟩ := hne
            exact ⟨y.1, by simpa using hyd, fun x hx => hll y hy x hx⟩
        obtain ⟨es1, es2, rfl, hafter, hfed, hkept⟩ := ih hrest hs' he' hdone' hdeleted' h
        refine ⟨l ++ es1, es2, by simp, hafter, ?_, hkept⟩
        rwa [keepOutside_append, ← append_assoc]

end Stream

/-! ### The window and its parents -/

section Window

variable {p q : Manager} {start stop : Bytes} {level : Nat} {a w b : List Child}

/-- The leaves below the window nodes hold what the window holds. -/
theorem windowLeaves_spec {format : TreeFormat} {win : List Child} {nodes : List Node}
    {counts : List Nat} {leaves : List NodeSummary}
    (hwin : ∀ c ∈ win, Subtree p 1 c.cid c.entries)
    (hload : (win.map Child.cid).mapM p.loadArc = .ok nodes)
    (h : windowLeaves format nodes counts = .ok (some leaves)) :
    Forest p 0 leaves (Child.all win) := by
  induction win generalizing nodes counts leaves with
  | nil =>
    cases hload
    cases h
    exact .nil
  | cons c win ih =>
    rw [map_cons, mapM_cons] at hload
    obtain ⟨node, hnode, hload⟩ := of_bind hload
    obtain ⟨nodes', hnodes, hcons⟩ := of_bind hload
    cases hcons
    obtain ⟨n, kids, hn, hint, hes, hkids⟩ := hwin c mem_cons_self
    obtain rfl : node = n := Except.ok.inj (hnode.symm.trans hn)
    rw [windowLeaves] at h
    split at h
    · cases h
    obtain ⟨total, -, h⟩ := of_bind h
    split at h
    · cases h
    rw [hint.childSummaries, ok_bind] at h
    obtain ⟨rest, hrest, h⟩ := of_bind h
    cases rest with
    | none => cases h
    | some rest =>
      cases h
      rw [Child.all_cons, hes]
      exact Forest.append ⟨kids, rfl, hkids, rfl⟩
        (ih (fun c hc => hwin c (.tail _ hc)) hnodes hrest)

theorem map_splice {α β : Type} (f : α → β) (a w w' b : List α) :
    ((a ++ w ++ b).map f).take a.length ++ w'.map f ++
        ((a ++ w ++ b).map f).drop (a.length + w.length) =
      (a ++ w' ++ b).map f := by
  have hdrop : ((a ++ w ++ b).map f).drop (a.length + w.length) = b.map f := by
    rw [map_append]
    exact drop_left' (by simp)
  rw [hdrop, append_assoc a w b, map_append, take_left' (length_map f)]
  simp

/-- Splicing children into a node. -/
theorem Node.IsInternal.spliceChildren {n : Node} (h : n.IsInternal level (a ++ w ++ b))
    (w' : List Child) (hne : a ++ w' ++ b ≠ []) (hs : Sorted (Child.all (a ++ w' ++ b))) :
    (n.spliceChildren a.length (a.length + w.length) (w'.map Child.summary)).IsInternal level
      (a ++ w' ++ b) where
  leaf := h.leaf
  level := h.level
  keys := by
    rw [← map_splice _ a w w' b, ← h.keys]
    simp [Node.spliceChildren, Child.summary, Function.comp_def]
  vals := by
    rw [← map_splice _ a w w' b, ← h.vals]
    simp [Node.spliceChildren, Child.summary, Function.comp_def]
  counts := by
    rw [← map_splice _ a w w' b, ← h.counts]
    simp [Node.spliceChildren, Child.summary, Function.comp_def]
  nonempty := hne
  sorted := hs

/-- The new root holds what its children hold. -/
theorem rebuiltRoot_holds {updated : Node} {kids : List Child} {root : Cid}
    {out : List EmittedNode} (h : updated.IsInternal 2 kids)
    (hkids : ∀ c ∈ kids, Subtree q 1 c.cid c.entries)
    (hroot : rebuiltRoot q.digests q.format updated = .ok (some (root, out)))
    (hstored : ∀ n ∈ out, Stored q n.node) : Holds q (some root) (Child.all kids) := by
  rw [rebuiltRoot] at hroot
  split at hroot
  · next hlen =>
    obtain ⟨c, rfl⟩ := length_eq_one_iff.mp (h.len.symm.trans hlen)
    have hcid : updated.childCid 0 = .ok c.cid := @Node.IsInternal.childCid updated 2 [] [] c h
    rw [hcid, ok_bind] at hroot
    cases hroot
    exact ⟨1, by simpa using hkids c (by simp)⟩
  · rw [h.childSummaries, ok_bind] at hroot
    obtain ⟨built, hbuilt, hroot⟩ := of_bind hroot
    split at hroot
    · next top =>
      split at hroot
      · cases hroot
        exact (buildLevelSerial_forest h.sorted ⟨kids, rfl, hkids, rfl⟩ hbuilt hstored).holds
      · cases hroot
    · cases hroot

end Window

/-! ### The splice -/

section Splice

variable {p q : Manager} {start stop : Bytes} {oldLeaves : List NodeSummary} {es : List Entry}
  {i level : Nat} {d : Digests} {ns : List Node} {n root : Node} {rootCid : Cid}
  {windowCids : List Cid} {leaves parents roots : List EmittedNode} {a w b : List Child}
  {tree : Tree} {out : Written}

/-- The leaves before the replayed ones lie before the range. -/
theorem Forest.beforeReplay (h : Forest p 0 oldLeaves es) (hs : Sorted es) (start : Bytes) :
    let i := partitionPoint (fun leaf : NodeSummary => decide (leaf.firstKey ≤ start)) oldLeaves - 2
    ∃ es1 es2, es = es1 ++ es2 ∧ Forest p 0 (oldLeaves.take i) es1 ∧
      Forest p 0 (oldLeaves.drop i) es2 ∧ ∀ x ∈ es1, x.1 < start := by
  intro i
  rw [← take_append_drop i oldLeaves] at h
  refine h.before hs ?_
  by_cases hi :
    i < partitionPoint (fun leaf : NodeSummary => decide (leaf.firstKey ≤ start)) oldLeaves
  · obtain ⟨next, hnext, hle⟩ := of_lt_partitionPoint hi
    exact .inr ⟨next, hnext, by simpa using hle⟩
  · -- No leaf starts at or before the range: the replay begins with the first leaf.
    have hzero : i = 0 := by omega
    exact .inl (by rw [hzero, take_zero])

/-- The leaves kept, emitted and left over hold what lies outside the range. -/
theorem replacement_forest (hext : Extends p q) {e e' : LeafEmitter} {r : Splice}
    {es1 es2 : List Entry} (hs : Sorted (es1 ++ es2)) (h1 : Forest p 0 (oldLeaves.take i) es1)
    (h2 : Forest p 0 (oldLeaves.drop i) es2) (hbefore : ∀ x ∈ es1, x.1 < start)
    (hnew : LeafEmitter.new p.format = .ok e)
    (hr : spliceLeaves p p.format start stop (oldLeaves.drop i) e 0 = .ok r)
    (hflush : r.emitter.flush p.digests = .ok e') (hstored : ∀ n ∈ e'.emitted, Stored q n.node) :
    Forest q 0 (oldLeaves.take i ++ e'.summaries ++ r.after)
        (keepOutside start stop (es1 ++ es2)) := by
  obtain ⟨-, hs2, -⟩ := sorted_append.mp hs
  have hemitted : ∀ n ∈ r.emitter.emitted, Stored q n.node := by
    intro n hn
    obtain ⟨⟨last, _⟩, -, hflush⟩ := of_bind hflush
    cases hflush
    exact hstored n (mem_append_left _ hn)
  obtain ⟨done, after, rfl, hafter, hfed, hkept⟩ := spliceLeaves_spec hext (h2.mono hext)
    (show Sorted ([] ++ es2) from hs2) (LeafEmitter.new_fed hnew) (by simp)
      (fun h => absurd h (lt_irrefl 0)) hr hemitted
  have hemits := hfed.flush hflush
  rw [← hext.digests, ← hext.format, nil_append] at hemits
  have hdone : Sorted (keepOutside start stop done) := (sorted_append.mp hs2).1.filter _
  rw [keepOutside_append, keepOutside_append,
    keepOutside_eq_self fun x hx => not_inDeleted_of_lt (hbefore x hx), keepOutside_eq_self hkept,
    ← append_assoc]
  exact ((h1.mono hext).append (hemits.leaves hdone hstored)).append hafter

/-- A node the splice does not hand over has an identifier it has seen. -/
theorem mem_unwritten (hn : n ∈ ns) (seen : List Cid) :
    n.cid d ∈ seen ∨ ∃ m ∈ unwritten d seen ns, m.cid d = n.cid d := by
  induction ns generalizing seen with
  | nil => cases hn
  | cons m ns ih =>
    rw [unwritten]
    rcases mem_cons.mp hn with rfl | hn
    · split
      · next hseen => exact .inl hseen
      · exact .inr ⟨n, mem_cons_self, rfl⟩
    · split
      · exact ih hn seen
      · rcases ih hn (m.cid d :: seen) with hmem | ⟨m', hm', hcid⟩
        · rcases mem_cons.mp hmem with heq | hmem
          · exact .inr ⟨m, mem_cons_self, heq.symm⟩
          · exact .inl hmem
        · exact .inr ⟨m', .tail _ hm', hcid⟩

theorem unwritten_subset {seen : List Cid} (h : n ∈ unwritten d seen ns) : n ∈ ns := by
  induction ns generalizing seen with
  | nil => cases h
  | cons m ns ih =>
    rw [unwritten] at h
    split at h
    · exact .tail _ (ih h)
    · rcases mem_cons.mp h with rfl | h
      · exact mem_cons_self
      · exact .tail _ (ih h)

/-- Each new node is handed over, unless its identifier is that of an old node of its kind. -/
theorem mem_spliceWrites (hn : n ∈ (leaves ++ parents ++ roots).map EmittedNode.node) :
    (∃ m ∈ spliceWrites d rootCid oldLeaves windowCids leaves parents roots, m.cid d = n.cid d) ∨
      n.cid d ∈ rootCid :: (oldLeaves.map NodeSummary.cid ++ windowCids) := by
  simp only [map_append, mem_append] at hn
  rcases hn with (hn | hn) | hn
  · rcases mem_unwritten (d := d) hn (oldLeaves.map NodeSummary.cid) with hold | ⟨m, hm, hcid⟩
    · exact .inr (.tail _ (mem_append_left _ hold))
    · exact .inl ⟨m, mem_append_left _ (mem_append_left _ hm), hcid⟩
  · rcases mem_unwritten (d := d) hn _ with hold | ⟨m, hm, hcid⟩
    · rcases mem_append.mp hold with hold | hold
      · exact .inr (.tail _ (mem_append_right _ hold))
      · obtain ⟨m, hm, hcid⟩ := mem_map.mp hold
        exact .inl ⟨m, mem_append_left _ (mem_append_left _ hm), hcid⟩
    · exact .inl ⟨m, mem_append_left _ (mem_append_right _ hm), hcid⟩
  · rcases mem_unwritten (d := d) hn _ with hold | ⟨m, hm, hcid⟩
    · rcases mem_cons.mp hold with heq | hold
      · exact .inr (heq ▸ mem_cons_self)
      · obtain ⟨m, hm, hcid⟩ := mem_map.mp hold
        exact .inl ⟨m, mem_append_left _ hm, hcid⟩
    · exact .inl ⟨m, mem_append_right _ hm, hcid⟩

theorem spliceWrites_subset
    (hn : n ∈ spliceWrites d rootCid oldLeaves windowCids leaves parents roots) :
    n ∈ (leaves ++ parents ++ roots).map EmittedNode.node := by
  simp only [spliceWrites, mem_append] at hn
  simp only [map_append, mem_append]
  rcases hn with (hn | hn) | hn
  · exact .inl (.inl (unwritten_subset hn))
  · exact .inl (.inr (unwritten_subset hn))
  · exact .inr (unwritten_subset hn)

theorem rebuiltRoot_writable {updated : Node} {root : Cid} {out : List EmittedNode}
    (hvalid : p.format.validate = .ok ()) (hlayout : p.format.nodeLayout.BuiltIn)
    (h : rebuiltRoot p.digests p.format updated = .ok (some (root, out))) :
    ∀ n ∈ out, n.Writable p := by
  rw [rebuiltRoot] at h
  split at h
  · obtain ⟨cid, -, h⟩ := of_bind h
    cases h
    simp
  · obtain ⟨children, -, h⟩ := of_bind h
    obtain ⟨built, hbuilt, h⟩ := of_bind h
    split at h
    · split at h
      · cases h
        exact (buildLevelSerial_emits hbuilt).writable hvalid hlayout
      · cases h
    · cases h

theorem Forest.loads {ss : List NodeSummary} (h : Forest p level ss es) :
    ∀ cid ∈ ss.map NodeSummary.cid, ∃ n, p.loadArc cid = .ok n := by
  obtain ⟨kids, rfl, hkids, -⟩ := h
  intro cid hcid
  obtain ⟨s, hs, rfl⟩ := mem_map.mp hcid
  obtain ⟨c, hc, rfl⟩ := mem_map.mp hs
  obtain ⟨n, hn, -⟩ := subtree_iff.mp (hkids c hc)
  exact ⟨n, hn⟩

/-- The root over the rebuilt parents of the window holds what lies around and in it. -/
theorem splicedParents_holds (hext : Extends p q) {replacement : List NodeSummary} {newRoot : Cid}
    (hint : root.IsInternal 2 (a ++ w ++ b))
    (hkids : ∀ c ∈ a ++ w ++ b, Subtree p 1 c.cid c.entries)
    (hs : Sorted (Child.all a ++ es ++ Child.all b)) (hes : Forest q 0 replacement es)
    (hne : parents.map EmittedNode.summary ≠ [])
    (hparents : buildLevelSerial p.digests p.format replacement 1 = .ok parents)
    (hspliced : rebuiltRoot p.digests p.format (root.spliceChildren a.length (a.length + w.length)
      (parents.map EmittedNode.summary)) = .ok (some (newRoot, roots)))
    (hps : ∀ n ∈ parents, Stored q n.node) (hroots : ∀ n ∈ roots, Stored q n.node) :
    Holds q (some newRoot) (Child.all a ++ es ++ Child.all b) := by
  rw [← hext.digests, ← hext.format] at hparents hspliced
  have hes' : Sorted es := (sorted_append.mp (sorted_append.mp hs).1).2.1
  obtain ⟨w', hw', hsub, rfl⟩ := buildLevelSerial_forest hes' hes hparents hps
  have hall : Child.all a ++ Child.all w' ++ Child.all b = Child.all (a ++ w' ++ b) := by simp
  rw [hall] at hs ⊢
  rw [hw'] at hspliced hne
  have hupdated := hint.spliceChildren w' (by simp_all) hs
  refine rebuiltRoot_holds hupdated (fun c hc => ?_) hspliced hroots
  rcases mem_append.mp hc with hc | hc
  · rcases mem_append.mp hc with hc | hc
    · exact (hkids c (by simp [hc])).mono hext.loads
    · exact hsub c hc
  · exact (hkids c (by simp [hc])).mono hext.loads

/-- The splice deletes the range, and returns the tree as it was if nothing lies in it. -/
theorem spliceWindow_effect (hformat : tree.format = p.format) (htree : tree.root = some rootCid)
    (hroot : p.loadArc rootCid = .ok root) (hint : root.IsInternal 2 (a ++ w ++ b))
    (hkids : ∀ c ∈ a ++ w ++ b, Subtree p 1 c.cid c.entries)
    (ha : ∀ x ∈ Child.all a, inDeleted start stop x.1 = false)
    (hb : ∀ x ∈ Child.all b, inDeleted start stop x.1 = false)
    (holds : Forest p 0 oldLeaves (Child.all w))
    (h : spliceWindow p tree start stop rootCid root a.length (a.length + w.length)
      (w.map Child.cid) oldLeaves = .ok (some out)) :
    out.Effect p (keepOutside start stop (Child.all (a ++ w ++ b))) ∧
      ((∀ x ∈ Child.all (a ++ w ++ b), inDeleted start stop x.1 = false) →
          out = .unchanged tree) := by
  have hs : Sorted (Child.all w) := by
    have := hint.sorted
    simp only [Child.all_append] at this
    exact (sorted_append.mp (sorted_append.mp this).1).2.1
  obtain ⟨es1, es2, hes, h1, h2, hbefore⟩ := holds.beforeReplay hs start
  have hkeep : keepOutside start stop (Child.all (a ++ w ++ b)) =
      Child.all a ++ keepOutside start stop (Child.all w) ++ Child.all b := by
    simp only [Child.all_append, keepOutside_append, keepOutside_eq_self ha, keepOutside_eq_self hb]
  obtain ⟨e, hnew, h⟩ := of_bind h
  obtain ⟨r, hr, h⟩ := of_bind h
  rw [hformat] at hnew hr
  have hzero := spliceLeaves_deleted h2 (sorted_append.mp (hes ▸ hs)).2.1 hr
  have hnone : r.deleted = 0 ↔
      ∀ x ∈ Child.all (a ++ w ++ b), inDeleted start stop x.1 = false := by
    have h1 : ∀ x ∈ es1, inDeleted start stop x.1 = false := fun x hx =>
      not_inDeleted_of_lt (hbefore x hx)
    rw [hzero, Child.all_append, Child.all_append, hes]
    simp only [forall_mem_append]
    tauto
  split at h
  · next hdeleted =>
    cases h
    rw [keepOutside_eq_self (hnone.mp hdeleted)]
    refine ⟨.unchanged ?_ hformat, fun _ => rfl⟩
    rw [htree]
    exact ⟨2, root, _, hroot, hint, rfl, hkids⟩
  next hdeleted =>
  refine ⟨?_, fun hkept => absurd (hnone.mpr hkept) hdeleted⟩
  split at h
  · cases h
  obtain ⟨e', hflush, h⟩ := of_bind h
  obtain ⟨parents, hparents, h⟩ := of_bind h
  dsimp only at h
  split at h
  · cases h
  next hne =>
  obtain ⟨spliced, hspliced, h⟩ := of_bind h
  cases spliced with
  | none => cases h
  | some spliced =>
    obtain ⟨newRoot, roots⟩ := spliced
    cases h
    rw [hformat] at hparents hspliced
    have hrebuilt := splicedRoot_some hspliced
    have hfed := LeafEmitter.new_fed hnew
    rw [hkeep, hes]
    refine ⟨fun q hext hstored => ?_, hformat, ?_, fun n hn => spliceWrites_subset hn, ?_⟩
    · simp only [map_append, forall_mem_append, forall_mem_map] at hstored
      obtain ⟨⟨hleaves, hps⟩, hroots⟩ := hstored
      have hreplaced := replacement_forest hext (hes ▸ hs) h1 h2 hbefore hnew hr hflush hleaves
      have hsorted : Sorted (keepOutside start stop (Child.all (a ++ w ++ b))) :=
        hint.sorted.filter _
      rw [hkeep, hes] at hsorted
      exact splicedParents_holds hext hint hkids hsorted hreplaced (fun h => hne (.inl h))
        hparents hrebuilt hps hroots
    · simp only [map_append, forall_mem_append, forall_mem_map]
      obtain ⟨done, hdone⟩ := spliceLeaves_fed hfed hr
      exact ⟨⟨(hdone.flush hflush).encodes hfed.valid hfed.layout,
        (buildLevelSerial_emits hparents).encodes hfed.valid hfed.layout⟩,
        fun n hn => (rebuiltRoot_writable hfed.valid hfed.layout hrebuilt n hn).encodes⟩
    · intro n hn
      refine (mem_spliceWrites hn).imp id fun hold => ?_
      rcases mem_cons.mp hold with heq | hold
      · exact ⟨root, heq ▸ hroot⟩
      · rcases mem_append.mp hold with hold | hold
        · exact holds.loads _ hold
        · obtain ⟨c, hc, hcid⟩ := mem_map.mp hold
          obtain ⟨m, hm, -⟩ := subtree_iff.mp (hkids c (by simp [hc]))
          exact ⟨m, hcid ▸ hm⟩

/-- What the children outside the window around a key hold lies on one side of it. -/
theorem Node.IsInternal.outside_window {kids : List Child} (h : n.IsInternal level kids)
    (hne : ∀ c ∈ kids, c.entries ≠ []) (key : Bytes) :
    (∀ x ∈ Child.all (kids.take (n.childFor key - 1)), x.1 < key) ∧
      ∀ x ∈ Child.all (kids.drop (min (n.childFor key + 3) n.len)), key < x.1 := by
  obtain ⟨pre, c, post, rfl, hindex, hpre, hpost⟩ := h.focus hne key
  refine ⟨fun x hx => ?_, fun x hx => ?_⟩
  · obtain ⟨d, hd, hx⟩ := mem_flatMap.mp hx
    rw [hindex, take_append_of_le_length (Nat.sub_le _ 1)] at hd
    exact hpre x (mem_flatMap.mpr ⟨d, mem_of_mem_take hd, hx⟩)
  · obtain ⟨d, hd, hx⟩ := mem_flatMap.mp hx
    have hd : d ∈ (pre ++ c :: post).drop (pre.length + 1) := by
      refine drop_subset_drop_left _ ?_ hd
      rw [hindex, h.len]
      simp only [length_append, length_cons]
      omega
    rw [drop_append, drop_eq_nil_of_le (Nat.le_succ _)] at hd
    have hd : d ∈ post := by simpa using hd
    exact hpost x (mem_flatMap.mpr ⟨d, hd, hx⟩)

/-- The elements before a window, in it and behind it. -/
theorem exists_window {α : Type} {xs : List α} {j : Nat} (hij : i ≤ j) (hj : j ≤ xs.length) :
    ∃ a w b, xs = a ++ w ++ b ∧ i = a.length ∧ j = a.length + w.length ∧ xs.take i = a ∧
      xs.drop j = b := by
  refine ⟨xs.take i, (xs.take j).drop i, xs.drop j, ?_, ?_, ?_, rfl, rfl⟩
  · conv_lhs => rw [← take_append_drop j xs, ← take_append_drop i (xs.take j)]
    rw [take_take, min_eq_left hij]
  · rw [length_take]
    omega
  · rw [length_drop, length_take, length_take]
    omega

/-- The identifiers of the children in a window. -/
theorem Node.IsInternal.window_cids (h : n.IsInternal level (a ++ w ++ b)) :
    ((n.vals.take (a.length + w.length)).drop a.length).mapM childCidFromBytes =
      .ok (w.map Child.cid) := by
  rw [← mapM_childCidFromBytes, h.vals, ← map_take, ← map_drop, take_left' (by simp),
    drop_left' rfl]

/-- The root of a tree of height two. -/
theorem Subtree.height_two {cid : Cid} (h : Subtree p level cid es)
    (hroot : p.loadArc cid = .ok root) (hlevel : root.level = 2) :
    ∃ kids, es = Child.all kids ∧ root.IsInternal 2 kids ∧
      ∀ c ∈ kids, Subtree p 1 c.cid c.entries := by
  obtain ⟨n, hn, hnode⟩ := subtree_iff.mp h
  obtain rfl : root = n := Except.ok.inj (hroot.symm.trans hn)
  obtain rfl : 2 = level := by rw [← hnode.level_eq, hlevel]
  obtain ⟨kids, hint, hes, hkids⟩ := hnode
  exact ⟨kids, hes, hint, hkids⟩

/-- The localized delete, where it applies, deletes the range. -/
theorem tryLocalizedHeightTwo_effect (hholds : Holds p tree.root es)
    (hformat : tree.format = p.format)
    (h : tryLocalizedHeightTwo p tree start stop = .ok (some out)) :
    out.Effect p (keepOutside start stop es) ∧
      ((∀ x ∈ es, inDeleted start stop x.1 = false) → out = .unchanged tree) := by
  rw [tryLocalizedHeightTwo] at h
  split at h
  · cases h
  split at h
  · cases h
  next rootCid htree =>
  obtain ⟨root, hroot, h⟩ := of_bind h
  split at h
  · cases h
  split at h
  · cases h
  next hshape =>
  dsimp only at h
  split at h
  · cases h
  next hwindow =>
  rw [htree] at hholds
  obtain ⟨level, hsub⟩ := hholds
  obtain ⟨kids, rfl, hint, hkids⟩ :=
    hsub.height_two hroot (not_not.mp (not_or.mp (not_or.mp hshape).2).1)
  have hne : ∀ c ∈ kids, c.entries ≠ [] := fun c hc => (hkids c hc).nonempty
  have ha : ∀ x ∈ Child.all (kids.take (root.childFor start - 1)),
    inDeleted start stop x.1 = false :=
    fun x hx => not_inDeleted_of_lt ((hint.outside_window hne start).1 x hx)
  have hb : ∀ x ∈ Child.all (kids.drop (min (root.childFor stop + 3) root.len)),
      inDeleted start stop x.1 = false :=
    fun x hx => not_inDeleted_of_le ((hint.outside_window hne stop).2 x hx).le
  have hend : min (root.childFor stop + 3) root.len ≤ kids.length := hint.len ▸ min_le_right _ _
  -- The children before the window, in it and behind it.
  generalize root.childFor start - 1 = i at h ha hwindow
  generalize min (root.childFor stop + 3) root.len = j at h hb hwindow hend
  obtain ⟨a, w, b, rfl, hi, hj, hA, hB⟩ := exists_window (not_le.mp hwindow).le hend
  rw [hA] at ha
  rw [hB] at hb
  subst hi hj
  rw [hint.window_cids, ok_bind] at h
  obtain ⟨nodes, hnodes, h⟩ := of_bind h
  obtain ⟨leaves, hleaves, h⟩ := of_bind h
  cases leaves with
  | none => cases h
  | some oldLeaves =>
    dsimp only at h
    split at h
    · cases h
    have hw : ∀ c ∈ w, Subtree p 1 c.cid c.entries := fun c hc => hkids c (by simp [hc])
    exact spliceWindow_effect hformat htree hroot hint hkids ha hb
      (windowLeaves_spec hw hnodes hleaves) h

end Splice

end Prolly
