import Prolly.Builder
import Prolly.Reads
import Prolly.Lib.Patch

/-!
# Prolly.Write.Basic

What the paths of the writer share (`write.rs`): normalized mutations, the leaf
emitter, the child a key is routed to, and the shape of what a write leaves
behind.

A write is modelled by the tree it returns, every node it encoded on the way, and
those it handed to the store (`Written`). Writers compare content identifiers to
skip nodes they believe to be stored already. `Written.Effect` separates the two
concerns: the tree holds the right entries in every store that has all encoded
nodes, and each encoded node is either handed over or has the identifier of a
stored one. Only the step from there to the store after the write
(`Written.Effect.commit`) needs that SHA-256 has no collision among these nodes.
-/

namespace Prolly

open SortedAssoc (Sorted SortedEdits firstKey lookup patch kept)
open List

/-! ### Normalized mutations -/

/-- A normalized mutation, `(Vec<u8>, Option<Vec<u8>>)`. -/
abbrev Edit := Bytes × Option Bytes

/-! ### The store after a write -/

def Manager.put (p : Manager) (n : Node) : Manager :=
  { p with store := fun cid => if cid = n.cid p.digests then some n else p.store cid }

/-- `batch_put`: the nodes in order. -/
def Manager.batchPut (p : Manager) (nodes : List Node) : Manager := nodes.foldl Manager.put p

variable (p : Manager) {d : Digests} {level : Nat} {format : TreeFormat} {leaf : Bool}
  {rest : List Node.Row} {out : List EmittedNode}

@[simp] theorem Manager.batchPut_digests (nodes : List Node) :
    (p.batchPut nodes).digests = p.digests := by
  induction nodes generalizing p with
  | nil => rfl
  | cons n nodes ih => exact ih (p.put n)

@[simp] theorem Manager.batchPut_format (nodes : List Node) :
    (p.batchPut nodes).format = p.format := by
  induction nodes generalizing p with
  | nil => rfl
  | cons n nodes ih => exact ih (p.put n)

/-- What is stored under an identifier afterwards was put there or had been there. -/
theorem Manager.batchPut_store (nodes : List Node) (cid : Cid) :
    (∃ n ∈ nodes, n.cid p.digests = cid ∧ (p.batchPut nodes).store cid = some n) ∨
      (∀ n ∈ nodes, n.cid p.digests ≠ cid) ∧ (p.batchPut nodes).store cid = p.store cid := by
  induction nodes generalizing p with
  | nil => exact .inr ⟨by simp, rfl⟩
  | cons n nodes ih =>
    rcases ih (p.put n) with ⟨m, hm, hcid, hstore⟩ | ⟨hne, hstore⟩
    · exact .inl ⟨m, .tail _ hm, hcid, hstore⟩
    · have hrest : (p.batchPut (n :: nodes)).store cid = (p.put n).store cid := hstore
      by_cases hn : n.cid p.digests = cid
      · exact .inl ⟨n, mem_cons_self, hn, by rw [hrest]; simp [put, hn]⟩
      · refine .inr ⟨?_, by rw [hrest]; simp [put, Ne.symm hn]⟩
        intro m hm
        rcases mem_cons.mp hm with rfl | hm
        · exact hn
        · exact hne m hm

/-- Putting nodes that are stored changes nothing. -/
theorem Manager.batchPut_stored {p : Manager} {nodes : List Node} (h : ∀ n ∈ nodes, Stored p n) :
    p.batchPut nodes = p := by
  induction nodes with
  | nil => rfl
  | cons n nodes ih =>
    have hput : p.put n = p := by
      have hstore := (Manager.loadArc_eq_ok.mp (h n mem_cons_self)).1
      have hsame : (fun cid => if cid = n.cid p.digests then some n else p.store cid) =
          p.store := by
        funext cid
        split
        · next hcid => rw [hcid, hstore]
        · rfl
      rw [Manager.put, hsame]
    rw [Manager.batchPut, foldl_cons, hput]
    exact ih fun m hm => h m (.tail _ hm)

/-- Every stored node has the shape that decoding enforces. -/
def Manager.Decoded (p : Manager) : Prop := ∀ n ∈ p.nodes, n.WellShaped

/-- What a write leaves behind: the tree it returns, every node it encoded on the way and
the nodes it handed to the store. -/
structure Written where
  tree : Tree
  nodes : List Node := []
  writes : List Node := []

/-- A write that returns the tree as it was. -/
def Written.unchanged (tree : Tree) : Written := { tree }

/-- Nodes this crate may write to the store of `p`. -/
structure Node.Encodes (p : Manager) (n : Node) : Prop where
  format : n.format = p.format
  wellShaped : n.WellShaped
  bytes : ∃ bytes, n.tryToBytes = .ok bytes

/-- `m` is `n` as far as identifiers tell, and it was stored or is being stored. -/
def Written.Kept (p : Manager) (w : Written) (n : Node) : Prop :=
  (∃ m ∈ w.writes, m.cid p.digests = n.cid p.digests) ∨ ∃ m, p.loadArc (n.cid p.digests) = .ok m

/-- A write to the store of `p` whose tree holds `es` as soon as all nodes it encoded are
stored. -/
structure Written.Effect (p : Manager) (w : Written) (es : List Entry) : Prop where
  holds : ∀ q : Manager, Extends p q → (∀ n ∈ w.nodes, Stored q n) → Holds q w.tree.root es
  format : w.tree.format = p.format
  encodes : ∀ n ∈ w.nodes, n.Encodes p
  writes_subset : ∀ n ∈ w.writes, n ∈ w.nodes
  kept : ∀ n ∈ w.nodes, w.Kept p n

/-- Two nodes among collision-free ones, one of them encodable, are the same if their
identifiers are. -/
theorem Digests.CollisionFree.eq_of_cid {nodes : Set Node} (h : d.CollisionFree nodes) {n m : Node}
    (hn : n ∈ nodes) (hm : m ∈ nodes) (hns : n.WellShaped) (hms : m.WellShaped)
    (hbytes : ∃ bytes, n.tryToBytes = .ok bytes) (hcid : n.cid d = m.cid d) : n = m := by
  obtain ⟨bytes, hbytes⟩ := hbytes
  have hne : bytes ≠ [] := by
    obtain ⟨fb, body, -, -, rfl⟩ := Node.tryToBytes_eq_ok.mp hbytes
    simp [Node.compactMagic]
  have heq := h n hn m hm hcid
  have hm' : m.tryToBytes = .ok bytes := by
    rw [Node.toBytes, hbytes, Node.toBytes] at heq
    dsimp only at heq
    split at heq
    · next b hb => rw [hb, heq]
    · exact absurd heq hne
  exact Node.tryToBytes_inj hns hms hbytes hm'

namespace Written.Effect

variable {p : Manager} {w : Written} {es : List Entry}

theorem unchanged {tree : Tree} (h : Holds p tree.root es) (hformat : tree.format = p.format) :
    (Written.unchanged tree).Effect p es where
  holds q hext _ := h.mono hext.loads
  format := hformat
  encodes := by simp [Written.unchanged]
  writes_subset := by simp [Written.unchanged]
  kept := by simp [Written.unchanged]

/-- After the writes every node that was stored still is, and so is every node encoded on
the way, provided there is no collision among them. -/
theorem commit (h : w.Effect p es) (hdecoded : p.Decoded)
    (hcf : p.digests.CollisionFree (p.nodes ∪ {n | n ∈ w.nodes})) :
    Extends p (p.batchPut w.writes) ∧ Holds (p.batchPut w.writes) w.tree.root es := by
  have hmem : ∀ n ∈ w.nodes, n ∈ p.nodes ∪ {n | n ∈ w.nodes} := fun n hn => .inr hn
  -- a node put under the identifier of another one is that node
  have hsame : ∀ m ∈ w.nodes, ∀ n ∈ p.nodes ∪ {n | n ∈ w.nodes}, n.WellShaped →
      m.cid p.digests = n.cid p.digests → m = n := fun m hm n hn hns hcid =>
    hcf.eq_of_cid (hmem m hm) hn (h.encodes m hm).wellShaped hns (h.encodes m hm).bytes hcid
  have hext : Extends p (p.batchPut w.writes) := by
    refine ⟨by simp, by simp, ?_⟩
    intro cid n hload
    have hn : n ∈ p.nodes := ⟨cid, hload⟩
    obtain ⟨hstore, hcid, hformat⟩ := Manager.loadArc_eq_ok.mp hload
    refine Manager.loadArc_eq_ok.mpr ⟨?_, by simpa using hcid, by simpa using hformat⟩
    rcases p.batchPut_store w.writes cid with ⟨m, hm, hmcid, hput⟩ | ⟨-, hput⟩
    · rw [hput, hsame m (h.writes_subset m hm) n (.inl hn) (hdecoded n hn) (hmcid.trans hcid.symm)]
    · rw [hput, hstore]
  refine ⟨hext, h.holds _ hext ?_⟩
  intro n hn
  have henc := h.encodes n hn
  refine Manager.loadArc_eq_ok.mpr ⟨?_, rfl, by simpa using henc.format⟩
  rw [Manager.batchPut_digests]
  rcases p.batchPut_store w.writes (n.cid p.digests) with ⟨m, hm, hmcid, hput⟩ | ⟨hne, hput⟩
  · rw [hput, hsame m (h.writes_subset m hm) n (hmem n hn) henc.wellShaped hmcid]
  · rcases h.kept n hn with ⟨m, hm, hmcid⟩ | ⟨m, hload⟩
    · exact absurd hmcid (hne m hm)
    · obtain ⟨hstore, hcid, -⟩ := Manager.loadArc_eq_ok.mp hload
      have hm : m ∈ p.nodes := ⟨_, hload⟩
      rw [hput, hstore, hsame n hn m (.inl hm) (hdecoded m hm) hcid.symm]

end Written.Effect

/-! ### Children of a node -/

namespace Node

/-- `internal_child_summaries`. -/
def childSummaries (n : Node) : Result (List NodeSummary) :=
  if n.leaf ∨ n.keys.length ≠ n.vals.length ∨ n.childCounts.length ≠ n.len then .error .invalidNode
  else (rows n.keys n.vals n.childCounts).mapM fun row => do
    let cid ← childCidFromBytes row.val
    return ⟨cid, row.key, row.count⟩

theorem rows_map {α : Type} (f g : α → Bytes) (h : α → Nat) (xs : List α) :
    rows (xs.map f) (xs.map g) (xs.map h) = xs.map fun x => ⟨f x, g x, h x⟩ := by
  induction xs with
  | nil => rfl
  | cons x xs ih => simp [rows, ih]

end Node

section Internal

variable {n : Node} {level : Nat} {kids pre post : List Child} {c : Child}

theorem Node.IsInternal.childSummaries (h : n.IsInternal level kids) :
    n.childSummaries = .ok (kids.map Child.summary) := by
  have hshape : ¬ (n.leaf = true ∨ n.keys.length ≠ n.vals.length ∨
      n.childCounts.length ≠ n.len) := by simp [h.leaf, h.keys, h.vals, h.counts, Node.len]
  rw [Node.childSummaries, if_neg hshape, h.keys, h.vals, h.counts, Node.rows_map]
  clear h hshape
  induction kids with
  | nil => rfl
  | cons c kids ih =>
    rw [map_cons, mapM_cons, ih]
    simp [Child.summary]

end Internal

/-! ### Summaries in front of a key -/

theorem of_lt_partitionPoint {α : Type} {pred : α → Bool} {xs : List α} {i : Nat}
    (h : i < partitionPoint pred xs) : ∃ x, (xs.drop i).head? = some x ∧ pred x = true := by
  have hprefix := takeWhile_prefix pred (l := xs)
  have hi : i < (xs.takeWhile pred).length := h
  refine ⟨(xs.takeWhile pred)[i], ?_, ?_⟩
  · rw [List.head?_drop, hprefix.getElem hi]
    exact List.getElem?_eq_getElem _
  · exact mem_takeWhile_imp (getElem_mem hi)

/-- The part of a forest in front of a summary that starts at or before the key. -/
theorem Forest.before {q : Manager} {pre post : List NodeSummary} {es : List Entry} {key : Bytes}
    (h : Forest q level (pre ++ post) es) (hs : Sorted es)
    (hpost : pre = [] ∨ ∃ next, post.head? = some next ∧ next.firstKey ≤ key) :
    ∃ es1 es2, es = es1 ++ es2 ∧ Forest q level pre es1 ∧ Forest q level post es2 ∧
      ∀ x ∈ es1, x.1 < key := by
  obtain ⟨es1, es2, rfl, h1, h2⟩ := h.split
  refine ⟨es1, es2, rfl, h1, h2, ?_⟩
  rcases hpost with rfl | ⟨next, hnext, hle⟩
  · obtain rfl := h1.eq_nil_iff.mp rfl
    simp
  · intro x hx
    have hlt := ((h2.nextFirst hs).1 next.firstKey (by rw [hnext]; rfl)).1 x hx
    exact hlt.trans_le hle

/-! ### Emitted nodes -/

theorem LevelEmitter.new_format {e : LevelEmitter}
    (h : LevelEmitter.new format leaf level = .ok e) :
    format.validate = .ok () ∧ format.nodeLayout.BuiltIn := by
  unfold LevelEmitter.new at h
  split at h
  · cases h
  · obtain ⟨_, hvalid, h⟩ := of_bind h
    refine ⟨hvalid, ?_⟩
    split at h
    · cases h
    · next hlayout =>
        cases hl : format.nodeLayout with
        | custom id parameters => exact absurd hl (hlayout id parameters)
        | _ => trivial

/-- The summary of an emitted node is that of the node. -/
theorem Emits.summary_eq {rows : List Node.Row} (h : Emits d format leaf level rows out rest) :
    ∀ n ∈ out, n.summary = n.node.summary d := by
  obtain ⟨chunks, -, -, rfl⟩ := h
  intro n hn
  obtain ⟨c, -, rfl⟩ := mem_map.mp hn
  rfl

theorem Emits.encodes {p : Manager} {rows : List Node.Row}
    (h : Emits d p.format leaf level rows out rest) (hvalid : p.format.validate = .ok ())
    (hlayout : p.format.nodeLayout.BuiltIn) : ∀ n ∈ out, n.node.Encodes p := by
  obtain ⟨chunks, -, -, rfl⟩ := h
  intro n hn
  obtain ⟨c, -, rfl⟩ := mem_map.mp hn
  refine ⟨rfl, ⟨?_, ?_, ?_⟩, Node.tryToBytes_ok hvalid hlayout⟩
  · simp [EmittedNode.of, Node.ofRows]
  · rintro rfl
    rfl
  · rintro rfl
    simp [EmittedNode.of, Node.ofRows]

/-- A node this crate may write to the store of `p`, under its own summary. -/
structure EmittedNode.Writable (p : Manager) (n : EmittedNode) : Prop where
  summary : n.summary = n.node.summary p.digests
  encodes : n.node.Encodes p

theorem Emits.writable {p : Manager} {rows : List Node.Row}
    (h : Emits p.digests p.format leaf level rows out rest) (hvalid : p.format.validate = .ok ())
    (hlayout : p.format.nodeLayout.BuiltIn) : ∀ n ∈ out, n.Writable p :=
  fun n hn => ⟨h.summary_eq n hn, h.encodes hvalid hlayout n hn⟩

/-- `LeafEmitter`. -/
structure LeafEmitter where
  emitter : LevelEmitter
  emitted : List EmittedNode := []

namespace LeafEmitter

/-- `LeafEmitter::new`. -/
def new (format : TreeFormat) : Result LeafEmitter := do
  let emitter ← LevelEmitter.new format true 0
  return { emitter }

/-- `LeafEmitter::push` for each entry. -/
def push (d : Digests) (e : LeafEmitter) (entries : List Entry) : Result LeafEmitter := do
  let (out, emitter) ← e.emitter.pushLeaves d entries
  return { emitter, emitted := e.emitted ++ out }

/-- `LeafEmitter::flush`. -/
def flush (d : Digests) (e : LeafEmitter) : Result LeafEmitter := do
  let (last, emitter) ← e.emitter.flushCurrent d
  return { emitter, emitted := e.emitted ++ last.toList }

/-- `is_aligned_with`. -/
def isAlignedWith (e : LeafEmitter) (old : NodeSummary) : Bool :=
  e.emitter.isEmpty &&
    ((e.emitted.getLast?.map fun leaf => decide (leaf.summary.cid = old.cid)).getD false)

/-- The summaries of the leaves emitted so far. -/
def summaries (e : LeafEmitter) : List NodeSummary := e.emitted.map EmittedNode.summary

/-- The emitter of a valid format that has been fed the entries. -/
structure Fed (p : Manager) (e : LeafEmitter) (es : List Entry) : Prop where
  valid : p.format.validate = .ok ()
  layout : p.format.nodeLayout.BuiltIn
  emits : LevelEmitter.EmitsTo p.digests p.format true 0 (es.map LevelEmitter.entryRow) e.emitted
    e.emitter

variable {p : Manager} {e e' : LeafEmitter} {es es' : List Entry}

theorem new_fed (h : new p.format = .ok e) : e.Fed p [] := by
  obtain ⟨emitter, hnew, h⟩ := of_bind h
  cases h
  obtain ⟨hvalid, hlayout⟩ := LevelEmitter.new_format hnew
  exact ⟨hvalid, hlayout, [], .nothing [], LevelEmitter.new_buffers hnew⟩

theorem Fed.push (he : e.Fed p es) (h : e.push p.digests es' = .ok e') : e'.Fed p (es ++ es') := by
  obtain ⟨⟨out, emitter⟩, hpush, h⟩ := of_bind h
  cases h
  obtain ⟨rest, hemits, hbuf⟩ := he.emits
  obtain ⟨rest', hemits', hbuf'⟩ := LevelEmitter.pushLeaves_spec hbuf hpush
  refine ⟨he.valid, he.layout, rest', ?_, hbuf'⟩
  rw [map_append]
  exact hemits.append hemits'

/-- After a flush the leaves hold everything. -/
theorem Fed.flush (he : e.Fed p es) (h : e.flush p.digests = .ok e') :
    Emits p.digests p.format true 0 (es.map LevelEmitter.entryRow) e'.emitted [] := by
  obtain ⟨⟨last, emitter⟩, hflush, h⟩ := of_bind h
  cases h
  obtain ⟨rest, hemits, hbuf⟩ := he.emits
  have hlast := (LevelEmitter.flushCurrent_spec hbuf hflush).1
  rw [← append_nil rest] at hlast
  simpa using hemits.append hlast

end LeafEmitter

end Prolly
