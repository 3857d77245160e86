import Prolly.Forest

/-!
# Prolly.Builder

Building the levels above a list of nodes (`builder.rs`, `builder/streaming.rs`):
the serial level builder that mutation writers use, and the streaming
`SortedBatchBuilder` with its cascade of parent levels.

A level of the serial builder keeps the entries of the nodes it is given
(`buildLevelSerial_forest`). The leaves of the streaming builder do not depend on what happens
above them, and what goes up from there is the business of the cascade
(`buildSortedWith_eq_ok`). It keeps the order of the entries as long as no push of a child emits
two nodes at once: its work list is a stack, so two nodes emitted together reach
their parent in the wrong order.
-/

namespace Prolly

open SortedAssoc
open LevelEmitter (childRow entryRow new_buffers finish_spec feed)
open List

/-! ### One level at a time -/

/-- `build_level_serial_deferred`. -/
def buildLevelSerial (d : Digests) (format : TreeFormat) (children : List NodeSummary)
    (level : Nat) : Result (List EmittedNode) := do
  let e ← LevelEmitter.new format false level
  let (out, e) ← e.pushChildren d children
  let last ← e.finish d
  return out ++ last

/-- `u8::MAX`. -/
def maxLevel : Nat := 255

variable {d : Digests} {format : TreeFormat} {level : Nat} {out nodes : List EmittedNode}
  {leaf : Bool} {rest : List Node.Row} {es : List Entry} {root : Option Cid}

theorem buildLevelSerial_emits {children : List NodeSummary}
    (h : buildLevelSerial d format children level = .ok out) :
    Emits d format false level (children.map childRow) out [] := by
  obtain ⟨e, hnew, h⟩ := of_bind h
  obtain ⟨⟨pushed, e'⟩, hpush, h⟩ := of_bind h
  obtain ⟨last, hfinish, h⟩ := of_bind h
  cases h
  obtain ⟨rest, hemits, hbuf⟩ := LevelEmitter.pushChildren_spec (new_buffers hnew) hpush
  have hlast : Emits d format false level (rest ++ []) last [] := by
    rw [append_nil]
    exact finish_spec hbuf hfinish
  simpa using hemits.append hlast

section Serial

variable {q : Manager} {es : List Entry}

theorem buildLevelSerial_forest {level : Nat} {ss : List NodeSummary} {out : List EmittedNode}
    (hs : Sorted es) (hss : Forest q level ss es)
    (h : buildLevelSerial q.digests q.format ss (level + 1) = .ok out)
    (hstored : ∀ n ∈ out, Stored q n.node) :
    Forest q (level + 1) (out.map EmittedNode.summary) es :=
  (buildLevelSerial_emits h).forest hs hss hstored

end Serial

/-! ### The cascade of parent levels -/

/-- `ParentLevel`: the first child of a level waits until there is a second. -/
structure ParentLevel where
  pendingFirst : Option NodeSummary := none
  emitter : Option LevelEmitter := none

/-- The emitter of a parent level that has just received its second child. -/
def startParent (d : Digests) (format : TreeFormat) (parentLevel : Nat) (first : NodeSummary) :
    Result LevelEmitter := do
  let e ← LevelEmitter.new format false parentLevel
  let (firstEmissions, e) ← e.pushChild d first
  if firstEmissions ≠ [] then .error .invalidNode else .ok e

/-- A parent level takes a child: the nodes it emits. -/
def ParentLevel.push (d : Digests) (format : TreeFormat) (parentLevel : Nat) (state : ParentLevel)
    (child : NodeSummary) : Result (List EmittedNode × ParentLevel) :=
  match state.emitter, state.pendingFirst with
  | some e, pendingFirst => do
      let (nodes, e) ← e.pushChild d child
      return (nodes, ⟨pendingFirst, some e⟩)
  | none, none => .ok ([], ⟨some child, none⟩)
  | none, some first => do
      let e ← startParent d format parentLevel first
      let (nodes, e) ← e.pushChild d child
      return (nodes, ⟨none, some e⟩)

/-- The order in which nodes emitted by one push go up to the next level. -/
abbrev Order := List EmittedNode → Result (List EmittedNode)

/-- The order of the source: the work list is a stack, so the node emitted last goes up
first. -/
def lastFirst : Order := fun nodes => .ok nodes.reverse

/-- Refuse a push that emits more than one node. -/
def oneAtATime : Order := fun nodes => if nodes.length ≤ 1 then .ok nodes else .error .invalidNode

/-- Nodes go up one after the other, each as `step` sends it, with all that follows from it
before the next. -/
def sendUp (step : NodeSummary → List ParentLevel → Result (List EmittedNode × List ParentLevel)) :
    List EmittedNode → List ParentLevel → Result (List EmittedNode × List ParentLevel)
  | [], parents => .ok ([], parents)
  | node :: nodes, parents => do
      let (emitted, parents) ← step node.summary parents
      let (rest, parents) ← sendUp step nodes parents
      return (node :: emitted ++ rest, parents)

/-- `cascade`: a child of height `level` goes to the first of the parent levels `parents`,
and the nodes that emits go up in turn. `room` is the number of levels left below
`u8::MAX`. -/
def cascade (order : Order) (d : Digests) (format : TreeFormat) :
    Nat → Nat → NodeSummary → List ParentLevel → Result (List EmittedNode × List ParentLevel)
  | 0, _, _, _ => .error .invalidNode
  | _ + 1, _, child, [] => .ok ([], [⟨some child, none⟩])
  | room + 1, level, child, state :: above => do
      let (nodes, state) ← state.push d format (level + 1) child
      let arranged ← order nodes
      let (emitted, above) ← sendUp (cascade order d format room (level + 1)) arranged above
      return (emitted, state :: above)

/-- `HierarchicalEmitter`. -/
structure HierarchicalEmitter where
  format : TreeFormat
  leaf : LevelEmitter
  parents : List ParentLevel

namespace HierarchicalEmitter

/-- `HierarchicalEmitter::new`. -/
def new (format : TreeFormat) : Result HierarchicalEmitter := do
  let leaf ← LevelEmitter.new format true 0
  return { format, leaf, parents := [] }

/-- `HierarchicalEmitter::push_leaf`. -/
def pushLeaf (order : Order) (d : Digests) (h : HierarchicalEmitter) (entry : Entry) :
    Result (List EmittedNode × HierarchicalEmitter) := do
  let (nodes, leaf) ← h.leaf.pushLeaf d entry
  let (emitted, parents) ← sendUp (cascade order d h.format maxLevel 0) nodes h.parents
  return (emitted, { h with leaf, parents })

/-- The loop of `finish`, from the parent level at `level` upwards. -/
def finishParents (order : Order) (d : Digests) (format : TreeFormat) :
    Nat → Nat → List ParentLevel → Result (NodeSummary × List EmittedNode)
  | 0, _, _ => .error .invalidNode
  | _ + 1, _, [] => .error .invalidNode
  | room + 1, level, state :: above =>
    match state.emitter, state.pendingFirst with
    | some e, _ => do
        let nodes ← e.finish d
        let (emitted, above) ← sendUp (cascade order d format room (level + 1)) nodes above
        let (root, rest) ← finishParents order d format room (level + 1) above
        return (root, emitted ++ rest)
    | none, some root => .ok (root, [])
    | none, none => finishParents order d format room (level + 1) above

/-- `HierarchicalEmitter::finish`. -/
def finish (order : Order) (d : Digests) (h : HierarchicalEmitter) :
    Result (Option NodeSummary × List EmittedNode) := do
  let nodes ← h.leaf.finish d
  let (emitted, parents) ← sendUp (cascade order d h.format maxLevel 0) nodes h.parents
  match parents with
  | [] => return (none, emitted)
  | _ => do
      let (root, rest) ← finishParents order d h.format maxLevel 0 parents
      return (some root, emitted ++ rest)

end HierarchicalEmitter

/-- `SortedBatchBuilder`: the hierarchy, the entry that may still be overwritten, and the
nodes emitted so far. -/
structure SortedBatchBuilder where
  hierarchy : HierarchicalEmitter
  pendingEntry : Option Entry := none
  nodes : List EmittedNode := []

namespace SortedBatchBuilder

/-- `SortedBatchBuilder::new`. The source panics where the format has no codec. -/
def new (format : TreeFormat) : Result SortedBatchBuilder := do
  let hierarchy ← HierarchicalEmitter.new format
  return { hierarchy }

/-- `flush_pending_entry`. -/
def flushPendingEntry (order : Order) (d : Digests) (b : SortedBatchBuilder) :
    Result SortedBatchBuilder :=
  match b.pendingEntry with
  | none => .ok b
  | some entry => do
      let (emitted, hierarchy) ← b.hierarchy.pushLeaf order d entry
      return { hierarchy, pendingEntry := none, nodes := b.nodes ++ emitted }

/-- Push the pending entry and hold the next one back. -/
def advance (order : Order) (d : Digests) (b : SortedBatchBuilder) (entry : Entry) :
    Result SortedBatchBuilder := do
  let b ← b.flushPendingEntry order d
  return { b with pendingEntry := some entry }

/-- `SortedBatchBuilder::add`. -/
def add (order : Order) (d : Digests) (b : SortedBatchBuilder) (entry : Entry) :
    Result SortedBatchBuilder :=
  match b.pendingEntry with
  | some previous =>
    if entry.1 < previous.1 then .error (.unsortedInput previous.1 entry.1)
    else if entry.1 = previous.1 then .ok { b with pendingEntry := some (previous.1, entry.2) }
    else b.advance order d entry
  | none => b.advance order d entry

/-- `add` for each entry. -/
def addAll (order : Order) (d : Digests) :
    SortedBatchBuilder → List Entry → Result SortedBatchBuilder
  | b, [] => .ok b
  | b, entry :: entries => do
      let b ← b.add order d entry
      addAll order d b entries

/-- `SortedBatchBuilder::build`: the root and every node written. -/
def build (order : Order) (d : Digests) (b : SortedBatchBuilder) :
    Result (Option Cid × List EmittedNode) := do
  let b ← b.flushPendingEntry order d
  let (root, emitted) ← b.hierarchy.finish order d
  return (root.map NodeSummary.cid, b.nodes ++ emitted)

end SortedBatchBuilder

/-- A fresh `SortedBatchBuilder` fed with sorted entries. -/
def buildSortedWith (order : Order) (d : Digests) (format : TreeFormat) (entries : List Entry) :
    Result (Option Cid × List EmittedNode) := do
  let b ← SortedBatchBuilder.new format
  let b ← b.addAll order d entries
  b.build order d

/-- The builder of the source. -/
def buildSorted : Digests → TreeFormat → List Entry → Result (Option Cid × List EmittedNode) :=
  buildSortedWith lastFirst

/-- No push of a child emits two nodes at once while the entries are built. -/
def BuildsInOrder (d : Digests) (format : TreeFormat) (entries : List Entry) : Prop :=
  (buildSortedWith oneAtATime d format entries).isOk = true

instance (d : Digests) (format : TreeFormat) (entries : List Entry) :
    Decidable (BuildsInOrder d format entries) :=
  inferInstanceAs (Decidable (_ = true))

/-! ### A build, level by level -/

/-- The leaves of a list of entries, chunked from the beginning. -/
def leafChunks (d : Digests) (format : TreeFormat) (entries : List Entry) :
    Result (List EmittedNode) := do
  let e ← LevelEmitter.new format true 0
  let (out, e) ← e.pushLeaves d entries
  let last ← e.finish d
  return out ++ last

theorem leafChunks_emits (h : leafChunks d format es = .ok out) :
    Emits d format true 0 (es.map entryRow) out [] := by
  obtain ⟨e, hnew, h⟩ := of_bind h
  obtain ⟨⟨pushed, e'⟩, hpush, h⟩ := of_bind h
  obtain ⟨last, hfinish, h⟩ := of_bind h
  cases h
  obtain ⟨rest, hemits, hbuf⟩ := LevelEmitter.pushLeaves_spec (new_buffers hnew) hpush
  have hlast : Emits d format true 0 (rest ++ []) last [] := by
    rw [append_nil]
    exact finish_spec hbuf hfinish
  simpa using hemits.append hlast

section Split

variable {order : Order}

theorem sendUp_append
    (step : NodeSummary → List ParentLevel → Result (List EmittedNode × List ParentLevel))
    (xs ys : List EmittedNode) (ps : List ParentLevel) :
    sendUp step (xs ++ ys) ps = (do
      let (out, ps) ← sendUp step xs ps
      let (rest, ps) ← sendUp step ys ps
      return (out ++ rest, ps)) := by
  induction xs generalizing ps with
  | nil =>
    rw [nil_append, sendUp, ok_bind]
    dsimp only
    cases sendUp step ys ps <;> rfl
  | cons x xs ih => simp [sendUp, ih]

namespace HierarchicalEmitter

/-- `push_leaf` for each entry. -/
def pushLeaves (order : Order) (d : Digests) :
    HierarchicalEmitter → List Entry → Result (List EmittedNode × HierarchicalEmitter)
  | h, [] => .ok ([], h)
  | h, entry :: entries => do
      let (emitted, h) ← h.pushLeaf order d entry
      let (rest, h) ← pushLeaves order d h entries
      return (emitted ++ rest, h)

theorem pushLeaves_append (h : HierarchicalEmitter) (xs ys : List Entry) :
    h.pushLeaves order d (xs ++ ys) = (do
      let (emitted, h) ← h.pushLeaves order d xs
      let (rest, h) ← h.pushLeaves order d ys
      return (emitted ++ rest, h)) := by
  induction xs generalizing h with
  | nil =>
    rw [nil_append, pushLeaves, ok_bind]
    dsimp only
    cases h.pushLeaves order d ys <;> rfl
  | cons x xs ih => simp [pushLeaves, ih]

/-- The leaf level takes the entries, and its leaves go up. -/
theorem pushLeaves_eq_ok {h h' : HierarchicalEmitter} {entries : List Entry} :
    h.pushLeaves order d entries = .ok (out, h') ↔
      ∃ leaves leaf parents, h.leaf.pushLeaves d entries = .ok (leaves, leaf) ∧
        sendUp (cascade order d h.format maxLevel 0) leaves h.parents = .ok (out, parents) ∧
        h' = { h with leaf, parents } := by
  induction entries generalizing h out with
  | nil =>
    constructor
    · intro hpush
      cases hpush
      exact ⟨[], _, _, rfl, rfl, rfl⟩
    · rintro ⟨leaves, leaf, parents, hleaf, hsend, hstate⟩
      cases hleaf
      cases hsend
      cases hstate
      rfl
  | cons entry entries ih =>
    constructor
    · intro hpush
      obtain ⟨⟨emitted, h1⟩, hfirst, hpush⟩ := of_bind hpush
      obtain ⟨⟨rest, h2⟩, hrest, hpush⟩ := of_bind hpush
      cases hpush
      obtain ⟨⟨nodes, leaf⟩, hnodes, hfirst⟩ := of_bind hfirst
      obtain ⟨⟨sent, parents⟩, hsend, hfirst⟩ := of_bind hfirst
      cases hfirst
      obtain ⟨leaves, leaf', parents', hleaves, hsend', rfl⟩ := ih.mp hrest
      refine ⟨nodes ++ leaves, leaf', parents', ?_, ?_, rfl⟩
      · show (h.leaf.pushLeaf d entry).bind _ = _
        rw [hnodes]
        show (feed (LevelEmitter.pushLeaf d) leaf entries).bind _ = _
        rw [show feed (LevelEmitter.pushLeaf d) leaf entries = _ from hleaves]
        rfl
      · rw [sendUp_append, hsend, ok_bind]
        show (sendUp _ leaves parents).bind _ = _
        rw [show sendUp _ leaves parents = _ from hsend']
        rfl
    · rintro ⟨leaves, leaf, parents, hleaves, hsend, rfl⟩
      obtain ⟨⟨nodes, leaf1⟩, hnodes, hleaves⟩ := of_bind hleaves
      obtain ⟨⟨more, leaf2⟩, hmore, hleaves⟩ := of_bind hleaves
      cases hleaves
      rw [sendUp_append] at hsend
      obtain ⟨⟨sent, parents1⟩, hsent, hsend⟩ := of_bind hsend
      obtain ⟨⟨rest, parents2⟩, hrest, hsend⟩ := of_bind hsend
      cases hsend
      have hfirst : h.pushLeaf order d entry =
          .ok (sent, { h with leaf := leaf1, parents := parents1 }) := by
        rw [pushLeaf, hnodes, ok_bind]
        show (sendUp _ nodes h.parents).bind _ = _
        rw [hsent]
        rfl
      have hlater := (ih (h := { h with leaf := leaf1, parents := parents1 })).mpr
        ⟨more, leaf, parents, hmore, hrest, rfl⟩
      rw [pushLeaves, hfirst, ok_bind]
      show (pushLeaves order d _ entries).bind _ = _
      rw [hlater]
      rfl

/-- The root over what the parent levels hold, and the nodes that takes. -/
def crown (order : Order) (d : Digests) (format : TreeFormat) (parents : List ParentLevel) :
    Result (Option NodeSummary × List EmittedNode) :=
  match parents with
  | [] => .ok (none, [])
  | _ => (finishParents order d format maxLevel 0 parents).map fun r => (some r.1, r.2)

theorem finish_eq_ok {h : HierarchicalEmitter} {root : Option NodeSummary} :
    h.finish order d = .ok (root, out) ↔
      ∃ last sent parents rest, h.leaf.finish d = .ok last ∧
        sendUp (cascade order d h.format maxLevel 0) last h.parents = .ok (sent, parents) ∧
        crown order d h.format parents = .ok (root, rest) ∧ out = sent ++ rest := by
  constructor
  · intro hfinish
    obtain ⟨last, hlast, hfinish⟩ := of_bind hfinish
    obtain ⟨⟨sent, parents⟩, hsend, hfinish⟩ := of_bind hfinish
    cases parents with
    | nil =>
      cases hfinish
      exact ⟨last, out, [], [], hlast, hsend, rfl, by simp⟩
    | cons state above =>
      obtain ⟨⟨top, rest⟩, htop, hfinish⟩ := of_bind hfinish
      cases hfinish
      exact ⟨last, sent, state :: above, rest, hlast, hsend, by simp [crown, htop, Except.map], rfl⟩
  · rintro ⟨last, sent, parents, rest, hlast, hsend, hcrown, rfl⟩
    rw [finish, hlast, ok_bind, hsend, ok_bind]
    cases parents with
    | nil =>
      cases hcrown
      simp [pure, Except.pure]
    | cons state above =>
      obtain ⟨⟨top, rest'⟩, htop, hcrown⟩ := map_eq_ok.mp hcrown
      cases hcrown
      show (finishParents order d h.format maxLevel 0 (state :: above)).bind _ = _
      rw [htop]
      rfl

end HierarchicalEmitter

open HierarchicalEmitter (finishParents pushLeaves crown finish_eq_ok pushLeaves_eq_ok)

/-- The entry held back makes no difference for entries with increasing keys. -/
theorem SortedBatchBuilder.addAll_build {b : SortedBatchBuilder} {entries : List Entry}
    (hs : Sorted (b.pendingEntry.toList ++ entries)) :
    (do let b ← b.addAll order d entries
        b.build order d) = (do
      let (emitted, h) ← b.hierarchy.pushLeaves order d (b.pendingEntry.toList ++ entries)
      let (root, last) ← h.finish order d
      return (root.map NodeSummary.cid, b.nodes ++ emitted ++ last)) := by
  have hflush : ∀ b : SortedBatchBuilder, b.flushPendingEntry order d = (do
      let (emitted, h) ← b.hierarchy.pushLeaves order d b.pendingEntry.toList
      return { hierarchy := h, pendingEntry := none, nodes := b.nodes ++ emitted }) := by
    intro b
    obtain ⟨hierarchy, pendingEntry, nodes⟩ := b
    cases pendingEntry with
    | none =>
      simp [flushPendingEntry, pushLeaves, pure, Except.pure]
    | some entry =>
      simp only [flushPendingEntry, pushLeaves, Option.toList_some]
      cases hierarchy.pushLeaf order d entry with
      | error error => rfl
      | ok r => simp [pure, Except.pure, bind, Except.bind]
  induction entries generalizing b with
  | nil =>
    rw [addAll, ok_bind, append_nil, build, hflush]
    cases b.hierarchy.pushLeaves order d b.pendingEntry.toList with
    | error error => rfl
    | ok r => rfl
  | cons entry entries ih =>
    have hadd : b.add order d entry = b.advance order d entry := by
      unfold add
      split
      · next previous hprevious =>
          have hkey : previous.1 < entry.1 := by
            have hlt := (sorted_append.mp hs).2.2
            exact hlt previous (by simp [hprevious]) entry mem_cons_self
          rw [if_neg (not_lt_of_gt hkey), if_neg hkey.ne']
      · rfl
    rw [addAll, hadd, advance, hflush, HierarchicalEmitter.pushLeaves_append]
    cases hpending : b.hierarchy.pushLeaves order d b.pendingEntry.toList with
    | error error => rfl
    | ok r =>
      have htail : Sorted ([entry] ++ entries) := (sorted_append.mp hs).2.1
      have hrest := ih (b := ⟨r.2, some entry, b.nodes ++ r.1⟩) htail
      refine Eq.trans ?_ (hrest.trans ?_)
      · rfl
      · show (do
            let (emitted, h) ← r.2.pushLeaves order d (entry :: entries)
            let (root, last) ← h.finish order d
            return (root.map NodeSummary.cid, b.nodes ++ r.1 ++ emitted ++ last)) = _
        simp only [ok_bind]
        cases r.2.pushLeaves order d (entry :: entries) with
        | error error => rfl
        | ok r1 => simp [pure, Except.pure, bind, Except.bind]

/-- A build is its leaves, what they set off above, and the root over it. -/
theorem buildSortedWith_eq_ok (hs : Sorted es) :
    buildSortedWith order d format es = .ok (root, out) ↔
      ∃ leaves sent parents top rest, leafChunks d format es = .ok leaves ∧
        sendUp (cascade order d format maxLevel 0) leaves [] = .ok (sent, parents) ∧
        crown order d format parents = .ok (top, rest) ∧
        root = top.map NodeSummary.cid ∧ out = sent ++ rest := by
  rw [buildSortedWith]
  constructor
  · intro h
    obtain ⟨b, hnew, h⟩ := of_bind h
    obtain ⟨hierarchy, hhier, hnew⟩ := of_bind hnew
    cases hnew
    obtain ⟨leaf, hleaf, hhier⟩ := of_bind hhier
    cases hhier
    rw [SortedBatchBuilder.addAll_build (by simpa using hs)] at h
    obtain ⟨⟨emitted, h1⟩, hpush, h⟩ := of_bind h
    obtain ⟨⟨top, last⟩, hfinish, h⟩ := of_bind h
    cases h
    obtain ⟨leaves, leaf1, parents, hleaves, hsend, rfl⟩ :=
      pushLeaves_eq_ok.mp hpush
    obtain ⟨final, sent, parents', rest, hlast, hsend', hcrown, rfl⟩ :=
      finish_eq_ok.mp hfinish
    dsimp only at hleaves hsend hlast hsend' hcrown
    rw [Option.toList_none, nil_append] at hleaves
    refine ⟨leaves ++ final, emitted ++ sent, parents', top, rest, ?_, ?_, hcrown, rfl, by simp⟩
    · simp [leafChunks, hleaf, hleaves, hlast]
    · rw [sendUp_append, hsend, ok_bind]
      show (sendUp _ final parents).bind _ = _
      rw [hsend']
      rfl
  · rintro ⟨leaves, sent, parents, top, rest, hleaves, hsend, hcrown, rfl, rfl⟩
    obtain ⟨leaf, hleaf, hleaves⟩ := of_bind hleaves
    obtain ⟨⟨pushed, leaf1⟩, hpush, hleaves⟩ := of_bind hleaves
    obtain ⟨last, hlast, hleaves⟩ := of_bind hleaves
    cases hleaves
    rw [sendUp_append] at hsend
    obtain ⟨⟨sent1, parents1⟩, hsend1, hsend⟩ := of_bind hsend
    obtain ⟨⟨sent2, parents2⟩, hsend2, hsend⟩ := of_bind hsend
    cases hsend
    have hnew : SortedBatchBuilder.new format =
        .ok { hierarchy := { format, leaf, parents := [] } } := by
      simp [SortedBatchBuilder.new, HierarchicalEmitter.new, hleaf]
    have hpushed : pushLeaves order d { format, leaf, parents := [] } es =
        .ok (sent1, { format, leaf := leaf1, parents := parents1 }) :=
      pushLeaves_eq_ok.mpr ⟨pushed, leaf1, parents1, hpush, hsend1, rfl⟩
    have hfinish : HierarchicalEmitter.finish order d
        { format, leaf := leaf1, parents := parents1 } = .ok (top, sent2 ++ rest) :=
      finish_eq_ok.mpr ⟨last, sent2, parents, rest, hlast, hsend2, hcrown, rfl⟩
    rw [hnew, ok_bind, SortedBatchBuilder.addAll_build (by simpa using hs)]
    dsimp only
    rw [Option.toList_none, nil_append, hpushed, ok_bind]
    dsimp only
    rw [hfinish]
    simp

end Split

/-! ### What the cascade holds -/

/-- What the parent levels hold, the children of the first one having height `level`: the
entries of the upper levels come before those still buffered here. A level without an
emitter is the last one. -/
inductive Holding (q : Manager) : Nat → List ParentLevel → List Entry → Prop
  | none {level : Nat} : Holding q level [] []
  | first {level : Nat} {s : NodeSummary} {es : List Entry} (h : Forest q level [s] es) :
      Holding q level [⟨some s, none⟩] es
  | emitting {level : Nat} {e : LevelEmitter} {above : List ParentLevel} {ss : List NodeSummary}
      {es1 es2 : List Entry} (habove : Holding q (level + 1) above es1)
      (hbuf : e.Buffers q.format false (level + 1) (ss.map childRow))
      (hss : Forest q level ss es2) : Holding q level (⟨none, some e⟩ :: above) (es1 ++ es2)

/-- What an emitter has emitted and what it still buffers. -/
theorem Emits.split_rows {α : Type} {row : α → Node.Row} {xs : List α}
    (h : Emits d format leaf level (xs.map row) out rest) :
    ∃ done todo, xs = done ++ todo ∧ rest = todo.map row ∧
      Emits d format leaf level (done.map row) out [] := by
  obtain ⟨chunks, hne, hrows, rfl⟩ := h
  obtain ⟨done, todo, rfl, hdone, rfl⟩ := map_eq_append_iff.mp hrows
  exact ⟨done, todo, rfl, rfl, chunks, hne, by rw [hdone, append_nil], rfl⟩

section Cascade

variable {q : Manager} {order : Order} {level : Nat} {e : LevelEmitter} {child : NodeSummary}
  {out nodes : List EmittedNode} {es es' : List Entry}
  {step : NodeSummary → List ParentLevel → Result (List EmittedNode × List ParentLevel)}
  {ps ps' : List ParentLevel}

theorem startParent_spec {first : NodeSummary}
    (h : startParent q.digests q.format level first = .ok e) :
    e.Buffers q.format false level ([first].map childRow) := by
  obtain ⟨e0, hnew, h⟩ := of_bind h
  obtain ⟨⟨out, e1⟩, hpush, h⟩ := of_bind h
  dsimp only at h
  split at h
  · cases h
  · next hout =>
      cases h
      obtain rfl : out = [] := not_not.mp hout
      have hfeed : e0.pushChildren q.digests [first] = .ok ([], e) := by
        simp [LevelEmitter.pushChildren, feed, hpush]
      obtain ⟨rest, ⟨chunks, -, hrows, hchunks⟩, hbuf⟩ :=
        LevelEmitter.pushChildren_spec (new_buffers hnew) hfeed
      obtain rfl : chunks = [] := map_eq_nil_iff.mp hchunks.symm
      rwa [show [first].map childRow = rest by simpa using hrows]

/-- A push to one emitter, in terms of summaries. -/
theorem pushChild_spec {e' : LevelEmitter} {ss : List NodeSummary}
    (hbuf : e.Buffers q.format false level (ss.map childRow))
    (h : e.pushChild q.digests child = .ok (out, e')) :
    ∃ done todo, ss ++ [child] = done ++ todo ∧
      e'.Buffers q.format false level (todo.map childRow) ∧
      Emits q.digests q.format false level (done.map childRow) out [] := by
  have hfeed : e.pushChildren q.digests [child] = .ok (out, e') := by
    simp [LevelEmitter.pushChildren, feed, h]
  obtain ⟨rest, hemits, hbuf'⟩ := LevelEmitter.pushChildren_spec hbuf hfeed
  rw [← map_append] at hemits
  obtain ⟨done, todo, hsplit, rfl, hdone⟩ := hemits.split_rows
  exact ⟨done, todo, hsplit, hbuf', hdone⟩

/-- A parent level takes a child: what the levels above held, what this one emits and what
it keeps are the entries so far, in order. -/
theorem ParentLevel.push_spec {state state' : ParentLevel} {above : List ParentLevel}
    (hps : Holding q level (state :: above) es) (hchild : Forest q level [child] es')
    (h : state.push q.digests q.format (level + 1) child = .ok (nodes, state')) :
    ∃ e done todo es1 es2 es3, state' = ⟨none, some e⟩ ∧ es ++ es' = es1 ++ es2 ++ es3 ∧
      Holding q (level + 1) above es1 ∧ Forest q level done es2 ∧ Forest q level todo es3 ∧
      e.Buffers q.format false (level + 1) (todo.map childRow) ∧
      Emits q.digests q.format false (level + 1) (done.map childRow) nodes [] := by
  cases hps with
  | first hs =>
    rename_i s
    obtain ⟨e, hstart, h⟩ := of_bind h
    obtain ⟨⟨out, e'⟩, hpush, h⟩ := of_bind h
    cases h
    obtain ⟨done, todo, hsplit, hbuf, hemits⟩ := pushChild_spec (startParent_spec hstart) hpush
    obtain ⟨f1, f2, hes, hdone, htodo⟩ := Forest.split (hsplit ▸ hs.append hchild)
    exact ⟨e', done, todo, [], f1, f2, rfl, by simpa using hes, .none, hdone, htodo, hbuf, hemits⟩
  | emitting habove hbuf hss =>
    rename_i e ss es1 es2
    obtain ⟨⟨out, e'⟩, hpush, h⟩ := of_bind h
    cases h
    obtain ⟨done, todo, hsplit, hbuf', hemits⟩ := pushChild_spec hbuf hpush
    obtain ⟨f1, f2, hes, hdone, htodo⟩ := Forest.split (hsplit ▸ hss.append hchild)
    exact ⟨e', done, todo, es1, f1, f2, rfl, by simp [hes], habove, hdone, htodo, hbuf', hemits⟩

theorem mem_of_sendUp (h : sendUp step nodes ps = .ok (out, ps')) : ∀ n ∈ nodes, n ∈ out := by
  induction nodes generalizing ps out with
  | nil => simp
  | cons node nodes ih =>
    obtain ⟨⟨emitted, ps1⟩, -, h⟩ := of_bind h
    obtain ⟨⟨rest, ps2⟩, hrest, h⟩ := of_bind h
    cases h
    intro n hn
    rcases mem_cons.mp hn with rfl | hn
    · simp
    · simp [ih hrest n hn]

/-- Nodes that go up in order join what the parent levels hold, if each does. -/
theorem sendUp_holding
    (hstep : ∀ {child : NodeSummary} {ps ps' : List ParentLevel} {es es' : List Entry}
      {out : List EmittedNode}, Sorted (es ++ es') → Holding q level ps es →
      Forest q level [child] es' → step child ps = .ok (out, ps') →
      (∀ n ∈ out, Stored q n.node) → Holding q level ps' (es ++ es')) (hs : Sorted (es ++ es'))
    (hps : Holding q level ps es) (hnodes : Forest q level (nodes.map EmittedNode.summary) es')
    (h : sendUp step nodes ps = .ok (out, ps')) (hstored : ∀ n ∈ out, Stored q n.node) :
    Holding q level ps' (es ++ es') := by
  induction nodes generalizing ps es es' out with
  | nil =>
    cases h
    obtain rfl := hnodes.eq_nil_iff.mp rfl
    rwa [append_nil]
  | cons node nodes ih =>
    obtain ⟨⟨emitted, ps1⟩, hnode, h⟩ := of_bind h
    obtain ⟨⟨rest, ps2⟩, hrest, h⟩ := of_bind h
    cases h
    obtain ⟨f1, f2, rfl, hf1, hf2⟩ := Forest.cons hnodes
    rw [← append_assoc] at hs ⊢
    have hfirst := hstep (sorted_append.mp hs).1 hps hf1 hnode
      fun n hn => hstored n (mem_append_left _ (.tail _ hn))
    exact ih hs hfirst hf2 hrest fun n hn => hstored n (mem_append_right _ hn)

variable (horder : ∀ nodes arranged, order nodes = .ok arranged → arranged = nodes) {room : Nat}

include horder in
/-- A cascade that keeps the order of the nodes it sends up appends the child's entries. -/
theorem cascade_holding (hs : Sorted (es ++ es')) (hps : Holding q level ps es)
    (hchild : Forest q level [child] es')
    (h : cascade order q.digests q.format room level child ps = .ok (out, ps'))
    (hstored : ∀ n ∈ out, Stored q n.node) : Holding q level ps' (es ++ es') := by
  -- induction on the levels left: the nodes a push emits go up through the induction hypothesis
  induction room generalizing level child ps ps' es es' out with
  | zero => cases h
  | succ room ih =>
    cases ps with
    | nil =>
      cases h
      cases hps
      exact .first hchild
    | cons state above =>
      obtain ⟨⟨nodes, state'⟩, hpush, h⟩ := of_bind h
      obtain ⟨arranged, harranged, h⟩ := of_bind h
      obtain ⟨⟨emitted, above'⟩, hsend, h⟩ := of_bind h
      cases h
      obtain rfl := horder nodes arranged harranged
      obtain ⟨e, done, todo, es1, es2, es3, rfl, heq, habove, hdone, htodo, hbuf, hemits⟩ :=
        ParentLevel.push_spec hps hchild hpush
      rw [heq] at hs ⊢
      have hs12 := (sorted_append.mp hs).1
      have hs2 := (sorted_append.mp hs12).2.1
      have hnodes := hemits.forest hs2 hdone fun n hn => hstored n (mem_of_sendUp hsend n hn)
      exact .emitting (sendUp_holding ih hs12 habove hnodes hsend hstored) hbuf htodo

include horder in
/-- The root that `finish` returns is a tree of all that the parent levels hold. -/
theorem finishParents_spec {root : NodeSummary} (hs : Sorted es) (hps : Holding q level ps es)
    (h : HierarchicalEmitter.finishParents order q.digests q.format room level ps = .ok (root, out))
    (hstored : ∀ n ∈ out, Stored q n.node) : ∃ level', Forest q level' [root] es := by
  induction room generalizing level ps es out with
  | zero => cases h
  | succ room ih =>
    cases hps with
    | none => cases h
    | first hs =>
      cases h
      exact ⟨level, hs⟩
    | emitting habove hbuf hss =>
      obtain ⟨nodes, hfinish, h⟩ := of_bind h
      obtain ⟨⟨emitted, above'⟩, hsend, h⟩ := of_bind h
      obtain ⟨⟨root', rest⟩, hrest, h⟩ := of_bind h
      cases h
      have hup : ∀ n ∈ emitted, Stored q n.node := fun n hn => hstored n (mem_append_left _ hn)
      have hnodes := (finish_spec hbuf hfinish).forest
        (sorted_append.mp hs).2.1 hss fun n hn => hup n (mem_of_sendUp hsend n hn)
      have hheld := sendUp_holding (cascade_holding horder) hs habove hnodes hsend hup
      exact ih hs hheld hrest fun n hn => hstored n (mem_append_right _ hn)

include horder in
/-- A build that keeps the order of the nodes it sends up is a tree of the entries. -/
theorem buildSortedWith_holds {root : Option Cid} (hs : Sorted es)
    (h : buildSortedWith order q.digests q.format es = .ok (root, out))
    (hstored : ∀ n ∈ out, Stored q n.node) : Holds q root es := by
  obtain ⟨leaves, sent, parents, top, rest, hleaves, hsend, hcrown, rfl, rfl⟩ :=
    (buildSortedWith_eq_ok hs).mp h
  obtain ⟨hsent, hrest⟩ := forall_mem_append.mp hstored
  have hforest := (leafChunks_emits hleaves).leaves hs
    fun n hn => hsent n (mem_of_sendUp hsend n hn)
  have hheld : Holding q 0 parents ([] ++ es) :=
    sendUp_holding (cascade_holding horder) hs .none hforest hsend hsent
  rw [nil_append] at hheld
  cases parents with
  | nil =>
    cases hcrown
    cases hheld
    rfl
  | cons state above =>
    obtain ⟨⟨top, rest'⟩, hfinish, hcrown⟩ := map_eq_ok.mp hcrown
    cases hcrown
    obtain ⟨level, htop⟩ := finishParents_spec horder hs hheld hfinish hrest
    exact htop.holds

end Cascade

/-! ### Invariants of a build -/

/-- Where `order` arranges the nodes, `order'` does so in the same way. -/
def Order.Agrees (order order' : Order) (nodes : List EmittedNode) : Prop :=
  ∀ arranged, order nodes = .ok arranged → order' nodes = .ok arranged ∧ arranged ⊆ nodes

/-- What holds of the emitters of all levels of a build and of the nodes they emit, while
`order'` arranges the nodes as `order` does. -/
structure BuildInvariant (order order' : Order) (d : Digests) (format : TreeFormat)
    (emitting : Nat → LevelEmitter → Prop) (emitted : EmittedNode → Prop) : Prop where
  new : ∀ {leaf level e}, LevelEmitter.new format leaf level = .ok e → emitting level e
  pushLeaf : ∀ {e entry out e'}, emitting 0 e → e.pushLeaf d entry = .ok (out, e') →
    emitting 0 e' ∧ ∀ n ∈ out, emitted n
  pushChild : ∀ {level e child out e'}, emitting (level + 1) e →
    e.pushChild d child = .ok (out, e') →
    emitting (level + 1) e' ∧ (∀ n ∈ out, emitted n) ∧ order.Agrees order' out
  finish : ∀ {level e out}, emitting level e → e.finish d = .ok out → ∀ n ∈ out, emitted n
  nothing : order.Agrees order' []

namespace BuildInvariant

variable {order order' : Order} {d : Digests} {format : TreeFormat}
  {emitting : Nat → LevelEmitter → Prop} {emitted : EmittedNode → Prop} {level : Nat}
  {out : List EmittedNode} {ps ps' : List ParentLevel}

/-- The invariant of the emitters of the parent levels above `level`. -/
def Parents (emitting : Nat → LevelEmitter → Prop) : Nat → List ParentLevel → Prop
  | _, [] => True
  | level, state :: above =>
    (∀ e ∈ state.emitter, emitting (level + 1) e) ∧ Parents emitting (level + 1) above

/-- Nodes sent up keep the invariant of the levels above if each does. -/
theorem sendUp
    {step step' : NodeSummary → List ParentLevel → Result (List EmittedNode × List ParentLevel)}
    (hstep : ∀ {child : NodeSummary} {ps ps' : List ParentLevel} {out : List EmittedNode},
      Parents emitting level ps → step child ps = .ok (out, ps') →
      step' child ps = .ok (out, ps') ∧ Parents emitting level ps' ∧ ∀ n ∈ out, emitted n)
    {nodes : List EmittedNode} (hps : Parents emitting level ps) (hnodes : ∀ n ∈ nodes, emitted n)
    (h : Prolly.sendUp step nodes ps = .ok (out, ps')) :
    Prolly.sendUp step' nodes ps = .ok (out, ps') ∧ Parents emitting level ps' ∧
      ∀ n ∈ out, emitted n := by
  induction nodes generalizing ps out with
  | nil =>
    cases h
    exact ⟨rfl, hps, by simp⟩
  | cons node nodes ih =>
    obtain ⟨⟨sent, ps1⟩, hnode, h⟩ := of_bind h
    obtain ⟨⟨rest, ps2⟩, hrest, h⟩ := of_bind h
    cases h
    obtain ⟨hnode', hps1, hsent⟩ := hstep hps hnode
    obtain ⟨hrest', hps2, hmade⟩ := ih hps1 (fun n hn => hnodes n (.tail _ hn)) hrest
    refine ⟨by simp [Prolly.sendUp, hnode', hrest'], hps2, ?_⟩
    rw [forall_mem_append, forall_mem_cons]
    exact ⟨⟨hnodes node mem_cons_self, hsent⟩, hmade⟩

variable (I : BuildInvariant order order' d format emitting emitted) {child : NodeSummary}
  {room : Nat}

include I

theorem parentPush {state state' : ParentLevel}
    (hstate : ∀ e ∈ state.emitter, emitting (level + 1) e)
    (h : state.push d format (level + 1) child = .ok (out, state')) :
    (∀ e ∈ state'.emitter, emitting (level + 1) e) ∧ (∀ n ∈ out, emitted n) ∧
      order.Agrees order' out := by
  unfold ParentLevel.push at h
  split at h
  · next _ e he =>
    obtain ⟨⟨nodes, e'⟩, hpush, h⟩ := of_bind h
    cases h
    simpa using I.pushChild (hstate e (by simp [he])) hpush
  · cases h
    exact ⟨by simp, by simp, I.nothing⟩
  · next first he =>
    obtain ⟨e, hstart, h⟩ := of_bind h
    obtain ⟨⟨nodes, e'⟩, hpush, h⟩ := of_bind h
    cases h
    obtain ⟨e0, hnew, hstart⟩ := of_bind hstart
    obtain ⟨⟨_, e1⟩, hfirst, hstart⟩ := of_bind hstart
    dsimp only at hstart
    split at hstart
    · cases hstart
    cases hstart
    simpa using I.pushChild (I.pushChild (I.new hnew) hfirst).1 hpush

theorem cascade (hps : Parents emitting level ps)
    (h : Prolly.cascade order d format room level child ps = .ok (out, ps')) :
    Prolly.cascade order' d format room level child ps = .ok (out, ps') ∧
      Parents emitting level ps' ∧ ∀ n ∈ out, emitted n := by
  induction room generalizing level child ps ps' out with
  | zero => cases h
  | succ room ih =>
    cases ps with
    | nil =>
      cases h
      exact ⟨rfl, by simp [Parents], by simp⟩
    | cons state above =>
      obtain ⟨⟨nodes, state'⟩, hpush, h⟩ := of_bind h
      obtain ⟨arranged, harranged, h⟩ := of_bind h
      obtain ⟨⟨sent, above'⟩, hsend, h⟩ := of_bind h
      cases h
      obtain ⟨hstate', hnodes, hagrees⟩ := I.parentPush hps.1 hpush
      obtain ⟨harranged', hsub⟩ := hagrees arranged harranged
      obtain ⟨hsend', habove', hsent⟩ :=
        BuildInvariant.sendUp ih hps.2 (fun n hn => hnodes n (hsub hn)) hsend
      refine ⟨?_, ⟨hstate', habove'⟩, hsent⟩
      rw [Prolly.cascade, hpush, ok_bind]
      dsimp only
      rw [harranged', ok_bind, hsend']
      rfl

theorem finishParents {root : NodeSummary} (hps : Parents emitting level ps)
    (h : HierarchicalEmitter.finishParents order d format room level ps = .ok (root, out)) :
    HierarchicalEmitter.finishParents order' d format room level ps = .ok (root, out) ∧
      ∀ n ∈ out, emitted n := by
  induction room generalizing level ps out with
  | zero => cases h
  | succ room ih =>
    match ps, hps with
    | [], _ => cases h
    | ⟨_, some e⟩ :: above, ⟨hstate, habove⟩ =>
      obtain ⟨nodes, hfinish, h⟩ := of_bind h
      obtain ⟨⟨sent, above'⟩, hsend, h⟩ := of_bind h
      obtain ⟨⟨root', rest⟩, hrest, h⟩ := of_bind h
      cases h
      obtain ⟨hsend', habove', hsent⟩ := BuildInvariant.sendUp I.cascade habove
        (I.finish (hstate e rfl) hfinish) hsend
      obtain ⟨hrest', hmade⟩ := ih habove' hrest
      refine ⟨?_, forall_mem_append.mpr ⟨hsent, hmade⟩⟩
      simp [HierarchicalEmitter.finishParents, hfinish, hsend', hrest']
    | ⟨some first, none⟩ :: above, _ =>
      cases h
      exact ⟨rfl, by simp⟩
    | ⟨none, none⟩ :: above, ⟨_, habove⟩ => exact ih habove h

theorem pushLeaves {e e' : LevelEmitter} {entries : List Entry} (he : emitting 0 e)
    (h : e.pushLeaves d entries = .ok (out, e')) : emitting 0 e' ∧ ∀ n ∈ out, emitted n := by
  induction entries generalizing e out with
  | nil =>
    cases h
    exact ⟨he, by simp⟩
  | cons entry entries ih =>
    obtain ⟨⟨nodes, e1⟩, hpush, h⟩ := of_bind h
    obtain ⟨⟨more, e2⟩, hmore, h⟩ := of_bind h
    cases h
    obtain ⟨he1, hnodes⟩ := I.pushLeaf he hpush
    obtain ⟨he2, hmore⟩ := ih he1 hmore
    exact ⟨he2, forall_mem_append.mpr ⟨hnodes, hmore⟩⟩

/-- Under an invariant, a build in the one order is the build in the other, and every node it
emits satisfies what the emitters ensure. -/
theorem build {es : List Entry} {root : Option Cid} (hs : Sorted es)
    (h : buildSortedWith order d format es = .ok (root, out)) :
    buildSortedWith order' d format es = .ok (root, out) ∧ ∀ n ∈ out, emitted n := by
  obtain ⟨leaves, sent, parents, top, rest, hleaves, hsend, hcrown, rfl, rfl⟩ :=
    (buildSortedWith_eq_ok hs).mp h
  have hemitted : ∀ n ∈ leaves, emitted n := by
    obtain ⟨e, hnew, h⟩ := of_bind hleaves
    obtain ⟨⟨pushed, e'⟩, hpush, h⟩ := of_bind h
    obtain ⟨last, hfinish, h⟩ := of_bind h
    cases h
    obtain ⟨he', hpushed⟩ := I.pushLeaves (I.new hnew) hpush
    exact forall_mem_append.mpr ⟨hpushed, I.finish he' hfinish⟩
  have hnone : Parents emitting 0 [] := trivial
  obtain ⟨hsend', hps, hsent⟩ := BuildInvariant.sendUp I.cascade hnone hemitted hsend
  have htop : HierarchicalEmitter.crown order' d format parents = .ok (top, rest) ∧
      ∀ n ∈ rest, emitted n := by
    cases parents with
    | nil =>
      cases hcrown
      exact ⟨rfl, by simp⟩
    | cons state above =>
      obtain ⟨⟨top, rest'⟩, hfinish, hcrown⟩ := map_eq_ok.mp hcrown
      cases hcrown
      obtain ⟨hfinish', hrest⟩ := I.finishParents hps hfinish
      exact ⟨map_eq_ok.mpr ⟨_, hfinish', rfl⟩, hrest⟩
  exact ⟨(buildSortedWith_eq_ok hs).mpr ⟨leaves, sent, parents, top, rest, hleaves, hsend', htop.1,
    rfl, rfl⟩, forall_mem_append.mpr ⟨hsent, htop.2⟩⟩

end BuildInvariant

/-! ### Builds that emit one node at a time -/

theorem oneAtATime_eq_ok {arranged : List EmittedNode} :
    oneAtATime nodes = .ok arranged ↔ nodes.length ≤ 1 ∧ arranged = nodes := by
  unfold oneAtATime
  split <;> simp_all [eq_comm]

/-- Alone, a node goes up in either order. -/
theorem lastFirst_of_length_le (h : nodes.length ≤ 1) : lastFirst nodes = .ok nodes := by
  match nodes with
  | [] => rfl
  | [_] => rfl
  | _ :: _ :: _ => simp at h

theorem oneAtATime_agrees (nodes : List EmittedNode) : oneAtATime.Agrees lastFirst nodes := by
  intro arranged h
  obtain ⟨hlen, rfl⟩ := oneAtATime_eq_ok.mp h
  exact ⟨lastFirst_of_length_le hlen, List.Subset.refl _⟩

/-- A build that emits one node at a time is what the builder builds. -/
theorem buildInvariant_oneAtATime (d : Digests) (format : TreeFormat) :
    BuildInvariant oneAtATime lastFirst d format (fun _ _ => True) fun _ => True where
  new _ := trivial
  pushLeaf _ _ := ⟨trivial, fun _ _ => trivial⟩
  pushChild _ _ := ⟨trivial, fun _ _ => trivial, oneAtATime_agrees _⟩
  finish _ _ _ _ := trivial
  nothing := oneAtATime_agrees []

/-- Where no push emits two nodes at once, the builder builds a tree of the entries. -/
theorem buildSorted_holds {q : Manager} (hs : Sorted es)
    (horder : BuildsInOrder q.digests q.format es)
    (h : buildSorted q.digests q.format es = .ok (root, out))
    (hstored : ∀ n ∈ out, Stored q n.node) : Holds q root es := by
  unfold BuildsInOrder at horder
  match hone : buildSortedWith oneAtATime q.digests q.format es with
  | .error _ => simp [hone, Except.isOk, Except.toBool] at horder
  | .ok r =>
    have hr := ((buildInvariant_oneAtATime q.digests q.format).build hs hone).1
    rw [buildSorted, hr] at h
    cases h
    exact buildSortedWith_holds (fun _ _ h => (oneAtATime_eq_ok.mp h).2) hs hone hstored

/-! ### The nodes a build emits -/

def EmittedNode.Made (d : Digests) (format : TreeFormat) (n : EmittedNode) : Prop :=
  ∃ leaf level rows, Emits d format leaf level rows [n] []

theorem Emits.made {rows : List Node.Row} (h : Emits d format leaf level rows out rest) :
    ∀ n ∈ out, n.Made d format := by
  obtain ⟨chunks, hne, -, rfl⟩ := h
  intro n hn
  obtain ⟨chunk, hchunk, rfl⟩ := mem_map.mp hn
  exact ⟨leaf, level, chunk, .one (hne chunk hchunk)⟩

/-- Emitters buffer rows of their level, and what they emit is made from such rows. -/
theorem buildInvariant_made (d : Digests) (format : TreeFormat) :
    BuildInvariant lastFirst lastFirst d format
      (fun level e => ∃ leaf rows, e.Buffers format leaf level rows)
        (EmittedNode.Made d format) where
  new h := ⟨_, [], new_buffers h⟩
  pushLeaf := by
    rintro e entry out e' ⟨leaf, rows, hbuf⟩ h
    unfold LevelEmitter.pushLeaf at h
    split at h
    · next hleaf =>
      obtain rfl : leaf = true := hbuf.leaf_eq.symm.trans hleaf
      obtain ⟨rest, hemits, hbuf'⟩ := LevelEmitter.pushEntry_spec hbuf rfl h
      exact ⟨⟨_, rest, hbuf'⟩, hemits.made⟩
    · cases h
  pushChild := by
    rintro level e child out e' ⟨leaf, rows, hbuf⟩ h
    unfold LevelEmitter.pushChild at h
    split at h
    · cases h
    · next hleaf =>
      obtain rfl : leaf = false := hbuf.leaf_eq.symm.trans (by simpa using hleaf)
      obtain ⟨rest, hemits, hbuf'⟩ := LevelEmitter.pushEntry_spec hbuf rfl h
      refine ⟨⟨_, rest, hbuf'⟩, hemits.made, fun arranged harranged => ⟨harranged, ?_⟩⟩
      cases harranged
      exact (reverse_perm out).subset
  finish := by
    rintro level e out ⟨leaf, rows, hbuf⟩ h
    exact (finish_spec hbuf h).made
  nothing arranged h := ⟨h, by cases h; simp⟩

theorem buildSorted_made (hs : Sorted es) (h : buildSorted d format es = .ok (root, out)) :
    ∀ n ∈ out, n.Made d format :=
  ((buildInvariant_made d format).build hs h).2

end Prolly
