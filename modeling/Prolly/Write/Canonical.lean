import Prolly.Builder.Levels
import Prolly.CascadeOrder
import Prolly.Write.Leaves
import Prolly.Write.Replay

/-!
# Prolly.Write.Canonical

Canonical trees: those that `SortedBatchBuilder` builds from their own entries. The leaf level of a
canonical tree is the chunking of its entries (`Canonical.leaves`), even where the cascade of parent
levels is not the one that builds level by level.

The replay of a canonical tree is canonical. It starts at a leaf whose first entry no mutation
touches, and where it stops its emitter is empty. Since emitters are memoryless, what it skips is
what a chunking from the beginning would have emitted (`replayLoop_chunks`).
-/

namespace Prolly

open SortedAssoc
open Emission (Emitter)
open LevelEmitter (entryRow new_buffers new_isFresh memoryless)
open List

/-! ### Canonical trees -/

/-- The tree is the one that `SortedBatchBuilder` builds from its entries; `out` is what that
emits. -/
structure Canonical (p : Manager) (tree : Tree) (es : List Entry) (out : List EmittedNode) :
    Prop where
  holds : Holds p tree.root es
  format : tree.format = p.format
  builds : buildSorted p.digests p.format es = .ok (tree.root, out)

section Leaves

variable {p : Manager} {tree : Tree} {es : List Entry} {out : List EmittedNode}

/-- What a build emits may be stored. -/
theorem Canonical.writable (h : Canonical p tree es out) : ∀ n ∈ out, n.Writable p := by
  obtain ⟨_, hnew, -⟩ := of_bind h.builds
  obtain ⟨_, hhier, -⟩ := of_bind hnew
  obtain ⟨_, hleaf, -⟩ := of_bind hhier
  obtain ⟨hvalid, hlayout⟩ := LevelEmitter.new_format hleaf
  intro n hn
  obtain ⟨leaf, level, rows, hemits⟩ := buildSorted_made h.holds.sorted h.builds n hn
  exact hemits.writable hvalid hlayout n (mem_singleton_self n)

/-- What is stored under the identifier of a node of the build is that node. -/
theorem Canonical.eq_of_load (h : Canonical p tree es out) (hdecoded : p.Decoded)
    (hcf : p.digests.CollisionFree (p.nodes ∪ {n | n ∈ out.map EmittedNode.node}))
    {m : EmittedNode} (hm : m ∈ out) {n : Node} (hload : p.loadArc m.summary.cid = .ok n) :
    n = m.node := by
  obtain ⟨hsummary, hencodes⟩ := h.writable m hm
  have hcid := (Manager.loadArc_eq_ok.mp hload).2.1
  have hmem : n ∈ p.nodes := ⟨_, hload⟩
  refine (hcf.eq_of_cid (.inr (mem_map_of_mem hm)) (.inl hmem) hencodes.wellShaped
    (hdecoded n hmem) hencodes.bytes ?_).symm
  rw [hcid, hsummary]
  rfl

/-- The leaf level below a grown node consists of leaves of the build. -/
theorem Grown.layered {leaves : List EmittedNode} {n : EmittedNode}
    (hn : Grown p.digests p.format (· ∈ out) leaves n)
    (hload : ∀ m ∈ out, ∀ node, p.loadArc m.summary.cid = .ok node → node = m.node)
    (hleaves : ∀ l ∈ leaves, l.node.leaf = true ∧ l.summary = l.node.summary p.digests)
    {level : Nat} {ss : List NodeSummary} {es : List Entry}
    (h : Layered p level n.summary.cid ss es) :
    ∃ ls : List EmittedNode, (∀ l ∈ ls, l ∈ leaves) ∧ ss = ls.map EmittedNode.summary ∧
      es = ls.flatMap fun l => l.node.entries := by
  induction hn generalizing level ss es with
  | @leaf n hleaf hn =>
    obtain ⟨htrue, hsummary⟩ := hleaves n hleaf
    cases level with
    | zero =>
      obtain ⟨⟨node, hnode, hholds⟩, rfl⟩ := h
      obtain rfl := hload n hn node hnode
      refine ⟨[n], by simpa using hleaf, ?_, by simp [hholds.entries_eq]⟩
      obtain ⟨-, hkey, hcount⟩ := (hholds.forest (q := p) (by
        rw [hsummary] at hnode
        exact hnode)).singleton
      rw [map_singleton, hsummary]
      congr 1
      rw [← hkey, ← hcount]
    | succ level =>
      obtain ⟨node, kids, -, hnode, hint, -⟩ := h
      obtain rfl := hload n hn node hnode
      rw [hint.leaf] at htrue
      cases htrue
  | @parent level' kids hkids hn ih =>
    cases level with
    | zero =>
      obtain ⟨⟨node, hnode, hholds⟩, -⟩ := h
      obtain rfl := hload _ hn node hnode
      cases hholds.leaf
    | succ level =>
      obtain ⟨node, cs, below, hnode, hint, rfl, rfl, hcs⟩ := h
      obtain rfl := hload _ hn node hnode
      have hbytes : kids.map (fun k => k.summary.cid.bytes) = cs.map fun c => c.cid.bytes := by
        have hvals := hint.vals
        simpa [EmittedNode.of, Node.ofRows, EmittedNode.row, LevelEmitter.childRow,
          Function.comp_def] using hvals
      -- the children are the grown nodes, one by one
      clear hn hkids hnode hint
      induction cs generalizing kids with
      | nil => exact ⟨[], by simp, rfl, rfl⟩
      | cons c cs ihcs =>
        cases kids with
        | nil => cases hbytes
        | cons k kids =>
          obtain ⟨hbyte, hbytes⟩ := List.cons.inj hbytes
          obtain ⟨hc, hcs⟩ := forall_mem_cons.mp hcs
          rw [← Cid.ext hbyte] at hc
          obtain ⟨ls, hls, hss, hes⟩ := ih k mem_cons_self hc
          obtain ⟨ls', hls', hss', hes'⟩ := ihcs (fun k' hk' => ih k' (.tail _ hk')) hcs hbytes
          refine ⟨ls ++ ls', forall_mem_append.mpr ⟨hls, hls'⟩, ?_, ?_⟩
          · rw [flatMap_cons, hss, hss', map_append]
          · rw [Child.all_cons, hes, hes', flatMap_append]

/-- Of the parts of a list without duplicates, only all of them in order give the list. -/
theorem eq_of_flatMap_eq {α β : Type} {f : α → List β} {all xs ys : List α}
    (hnodup : (all.flatMap f).Nodup) (hne : ∀ y ∈ all, f y ≠ []) (hys : ∀ y ∈ ys, y ∈ all)
    (hxs : ∀ x ∈ xs, x ∈ all) (h : xs.flatMap f = ys.flatMap f) : xs = ys := by
  have hsame : ∀ x ∈ all, ∀ y ∈ all, ∀ b, b ∈ f x → b ∈ f y → x = y := by
    intro x hx y hy b hbx hby
    by_contra hxy
    have : Std.Symm (Function.onFun List.Disjoint f) := ⟨fun _ _ h => List.Disjoint.symm h⟩
    exact (nodup_flatMap.mp hnodup).2.forall hx hy hxy hbx hby
  induction ys generalizing xs with
  | nil =>
    cases xs with
    | nil => rfl
    | cons x xs =>
      have hnil := (append_eq_nil_iff.mp (show f x ++ xs.flatMap f = [] from h)).1
      exact absurd hnil (hne x (hxs x mem_cons_self))
  | cons y ys ih =>
    obtain ⟨b, bs, hb⟩ := exists_cons_of_ne_nil (hne y (hys y mem_cons_self))
    cases xs with
    | nil =>
      rw [flatMap_cons, hb] at h
      cases h
    | cons x xs =>
      obtain ⟨b', bs', hb'⟩ := exists_cons_of_ne_nil (hne x (hxs x mem_cons_self))
      have hhead : b' = b := by
        rw [flatMap_cons, flatMap_cons, hb, hb'] at h
        exact (List.cons.inj h).1
      obtain rfl : x = y := hsame x (hxs x mem_cons_self) y (hys y mem_cons_self) b
        (by rw [hb', hhead]; exact mem_cons_self) (by rw [hb]; exact mem_cons_self)
      rw [flatMap_cons, flatMap_cons] at h
      rw [ih (fun z hz => hys z (.tail _ hz))
        (fun z hz => hxs z (.tail _ hz)) (append_cancel_left h)]

/-- The leaf level of a canonical tree is the chunking of its entries. -/
theorem Canonical.leaves (h : Canonical p tree es out) (hdecoded : p.Decoded)
    (hcf : p.digests.CollisionFree (p.nodes ∪ {n | n ∈ out.map EmittedNode.node}))
    {fuel : Nat} {olds : List NodeSummary} {cids : List Cid}
    (hcollect : collectLeafSummaries p fuel tree = .ok (olds, cids)) :
    ∃ leaves, leafChunks p.digests p.format es = .ok leaves ∧
      (∀ l ∈ leaves, p.loadArc l.summary.cid = .ok l.node) ∧
      olds = leaves.map EmittedNode.summary := by
  have hs := h.holds.sorted
  have hholds := h.holds
  have hbuilds := h.builds
  have hload := fun m hm n => h.eq_of_load hdecoded hcf (m := m) hm (n := n)
  rw [collectLeafSummaries] at hcollect
  cases hroot : tree.root with
  | none =>
    rw [hroot] at hcollect hholds
    cases hcollect
    obtain rfl : es = [] := hholds
    obtain ⟨leaves, -, -, -, -, hleaves, -⟩ := (buildSortedWith_eq_ok hs).mp hbuilds
    obtain ⟨parts, hparts, hne, rfl⟩ := leafChunks_parts hleaves
    have hnil : parts = [] := by
      cases parts with
      | nil => rfl
      | cons part parts =>
        have hempty := (append_eq_nil_iff.mp (show part ++ parts.flatten = [] from hparts.symm)).1
        exact absurd hempty (hne part mem_cons_self)
    subst hnil
    exact ⟨[], hleaves, by simp, rfl⟩
  | some root =>
    rw [hroot] at hcollect hholds hbuilds
    obtain ⟨level, hsub⟩ := hholds
    obtain ⟨leaves, n, hleaves, hmem, hgrown, rfl⟩ := buildSorted_grown hs hbuilds
    obtain ⟨parts, hparts, hne, rfl⟩ := leafChunks_parts hleaves
    have hlayered := collectFromNode_layered hsub hcollect
    obtain ⟨ls, hls, rfl, hes⟩ := hgrown.layered hload
      (by simp [EmittedNode.of, Node.ofRows]) hlayered
    have hleaf : ∀ part ∈ parts,
        (Node.ofRows p.format true 0 (part.map entryRow)).IsLeaf part := fun part hpart =>
      isLeaf_ofRows p.format (hne part hpart) (Sorted.of_mem_flatten (hparts ▸ hs) hpart)
    have hentries : (parts.map fun part =>
        EmittedNode.of p.digests (Node.ofRows p.format true 0 (part.map entryRow))).flatMap
        (fun l => l.node.entries) = es := by
      rw [flatMap_map, hparts, ← flatMap_id]
      exact flatMap_congr fun part hpart => (hleaf part hpart).entries_eq
    have hnodup : es.Nodup := hs.imp fun hlt heq => (heq ▸ hlt).false
    obtain rfl := eq_of_flatMap_eq (hentries.symm ▸ hnodup) (fun l hl => by
      obtain ⟨part, hpart, rfl⟩ := mem_map.mp hl
      show (Node.ofRows p.format true 0 (part.map entryRow)).entries ≠ []
      rw [(hleaf part hpart).entries_eq]
      exact hne part hpart) (fun _ hl => hl) hls (hes.symm.trans hentries.symm)
    refine ⟨_, hleaves, fun l hl => ?_, rfl⟩
    obtain ⟨kids, hsummaries, hkids, -⟩ := hlayered.forest
    obtain ⟨c, hc, hcl⟩ := mem_map.mp (hsummaries ▸ mem_map_of_mem hl)
    obtain ⟨node, hnode, -⟩ := hkids c hc
    have hcid : c.cid = l.summary.cid := congrArg NodeSummary.cid hcl
    rw [hcid] at hnode
    rw [hnode, hload l (hmem l hl) node hnode]

end Leaves

/-! ### A leaf emitter without its bound -/

section Emitter

variable {p : Manager} {e0 : LevelEmitter}

/-- The leaf emitter has been fed the entries. Without its upper bound its state is a function of
them. -/
structure LeafEmitter.FedExactly (p : Manager) (e0 : LevelEmitter) (e : LeafEmitter)
    (done : List Entry) : Prop where
  feed : (e0.exact p.digests).feed e0.erased (done.map entryRow) = .ok (e.emitted, e.emitter.erased)
  tracks : ∃ rows, e0.Tracks e.emitter rows
  upper : e0.sizer = none → e.emitter.upperSize ≤
    e0.upperSize + ((done.map entryRow).map (LevelEmitter.rowUpper e0.leaf)).sum

theorem LeafEmitter.push_nil (d : Digests) (e : LeafEmitter) : e.push d [] = .ok e := by
  simp [LeafEmitter.push, LevelEmitter.pushLeaves, LevelEmitter.feed]

theorem LeafEmitter.new_fedExactly (hfresh : e0.IsFresh) :
    LeafEmitter.FedExactly p e0 ⟨e0, []⟩ [] :=
  ⟨rfl, ⟨[], hfresh.tracks⟩, fun _ => le_rfl⟩

variable (hfresh : e0.IsFresh) (hleaf : e0.leaf = true)

namespace LeafEmitter.FedExactly

variable {e e' : LeafEmitter} {done new : List Entry} {nodes : List EmittedNode}

include hfresh hleaf

theorem push (h : e.FedExactly p e0 done) (hpush : e.push p.digests new = .ok e') :
    e'.FedExactly p e0 (done ++ new) := by
  obtain ⟨⟨out, emitter⟩, hpushed, hpush⟩ := of_bind hpush
  cases hpush
  obtain ⟨rows, htracks⟩ := h.tracks
  have hbuf := htracks.opens.buffers
  rw [hleaf] at hbuf
  rw [LevelEmitter.pushLeaves_eq e0 hbuf] at hpushed
  obtain ⟨hfeed, htracks', hupper⟩ :=
    LevelEmitter.feed_of_ok hfresh htracks (counted_entryRow hleaf _) hpushed
  refine ⟨?_, htracks', fun hnone => ?_⟩
  · rw [map_append, Emitter.feed_append_ok h.feed, hfeed]
    rfl
  · have hbefore := h.upper hnone
    have hafter := hupper hnone
    rw [map_append, map_append, sum_append]
    dsimp only
    omega

omit hleaf in
/-- An empty leaf emitter is as good as a fresh one. -/
theorem erased_eq (h : e.FedExactly p e0 done) (hempty : e.emitter.isEmpty = true) :
    e.emitter.erased = e0.erased := by
  obtain ⟨-, rows, -, hrows⟩ := (memoryless p.digests hfresh).open_of_feed h.feed
  have hopen := LevelEmitter.open_of_feed hfresh hrows
  have hnil : rows = [] := by
    have hisEmpty := hopen.isEmpty
    rw [show e.emitter.erased.current.isEmpty = true from hempty] at hisEmpty
    simpa using hisEmpty.symm
  subst hnil
  exact (Prod.mk.inj (Except.ok.inj hrows)).2.symm

omit hfresh hleaf in
theorem flush (h : e.FedExactly p e0 done) (hflush : e.flush p.digests = .ok e') :
    (e0.exact p.digests).complete e0.erased (done.map entryRow) = .ok e'.emitted := by
  obtain ⟨⟨last, emitter⟩, hlast, hflush⟩ := of_bind hflush
  cases hflush
  rw [Emitter.complete, h.feed]
  show ((e.emitter.erased).finish p.digests).map _ = _
  rw [LevelEmitter.finish_erased, LevelEmitter.finish, hlast]
  rfl

/-- Where the chunking of all entries succeeds, the next ones can be pushed. -/
theorem push_ok {more : List Entry} (h : e.FedExactly p e0 done)
    (hmax : e0.AdmitsAll e0 ((done ++ new ++ more).map entryRow))
    (hcomplete : (e0.exact p.digests).complete e0.erased ((done ++ new ++ more).map entryRow) =
      .ok nodes) : ∃ e', e.push p.digests new = .ok e' := by
  rw [map_append, map_append, append_assoc] at hcomplete
  obtain ⟨out1, s1, rest, hdone, hcomplete, -⟩ := Emitter.complete_append_eq_ok hcomplete
  rw [h.feed] at hdone
  cases hdone
  obtain ⟨out2, s2, -, hfeed, -⟩ := Emitter.complete_append_eq_ok hcomplete
  obtain ⟨rows, htracks⟩ := h.tracks
  have hmax' : e0.AdmitsAll e.emitter (new.map entryRow ++ more.map entryRow) := by
    intro hnone
    have hall := hmax hnone
    have hupper := h.upper hnone
    rw [map_append, map_append, map_append, map_append, sum_append, sum_append, max_self] at hall
    rw [map_append, sum_append]
    omega
  obtain ⟨emitter, hreal, -, -⟩ :=
    LevelEmitter.feed_of_admits hfresh htracks (counted_entryRow hleaf _) hmax' hfeed
  have hbuf := htracks.opens.buffers
  rw [hleaf] at hbuf
  rw [LeafEmitter.push, LevelEmitter.pushLeaves_eq e0 hbuf, hreal]
  exact ⟨_, rfl⟩

omit hfresh hleaf in
theorem flush_ok (h : e.FedExactly p e0 done)
    (hcomplete : (e0.exact p.digests).complete e0.erased (done.map entryRow) = .ok nodes) :
    ∃ e', e.flush p.digests = .ok e' := by
  rw [Emitter.complete, h.feed] at hcomplete
  obtain ⟨last, hfinish, -⟩ := map_eq_ok.mp hcomplete
  have hlast : e.emitter.finish p.digests = .ok last := by
    rw [← LevelEmitter.finish_erased]
    exact hfinish
  obtain ⟨r, hflush, -⟩ := of_bind hlast
  rw [LeafEmitter.flush, hflush]
  exact ⟨_, rfl⟩

end LeafEmitter.FedExactly

end Emitter

/-! ### The replay loop -/

/-- Leaves that a chunking emits one after another. -/
structure LeafRun (p : Manager) (e0 : LevelEmitter) (kids : List Child) : Prop where
  stored : ∀ c ∈ kids, Subtree p 0 c.cid c.entries
  summary : ∀ c ∈ kids, ((e0.exact p.digests).node (c.entries.map entryRow)).summary = c.summary
  chained : (e0.exact p.digests).Chained (kids.map fun c => c.entries.map entryRow)

section Replay

variable {p : Manager} {e0 : LevelEmitter} {kids pre post : List Child}
  {cursor start count fuel : Nat} {ms : List Edit} {consumed : List Edit → Bool} {e : LeafEmitter}
  {done : List Entry} {nodes : List EmittedNode}

theorem flatten_rows (kids : List Child) :
    (kids.map fun c => c.entries.map entryRow).flatten = (Child.all kids).map entryRow := by
  induction kids with
  | nil => rfl
  | cons c kids ih => rw [map_cons, flatten_cons, ih, Child.all_cons, map_append]

/-- No mutation reaches the first entry from leaf `start` on. -/
def Untouched (kids : List Child) (start : Nat) (ms : List Edit) : Prop :=
  ∃ x xs, Child.all (kids.drop start) = x :: xs ∧ ∀ m ∈ ms, x.1 < m.1

theorem Child.sorted_drop (hs : Sorted (Child.all kids)) (i : Nat) :
    Sorted (Child.all (kids.drop i)) := by
  rw [← take_append_drop i kids, Child.all_append] at hs
  exact (sorted_append.mp hs).2.1

/-- The mutations leave the entries up to `start` alone. -/
theorem Untouched.patch_eq (hs : Sorted (Child.all kids)) (hle : cursor ≤ start)
    (hhead : cursor < start → Untouched kids start ms) :
    patch (Child.all (kids.drop cursor)) ms =
      Child.all ((kids.drop cursor).take (start - cursor)) ++
        patch (Child.all (kids.drop start)) ms := by
  rcases hle.lt_or_eq with hlt | rfl
  · obtain ⟨x, xs, hx, hlt⟩ := hhead hlt
    have hcut : Child.all (kids.drop cursor) =
        Child.all ((kids.drop cursor).take (start - cursor)) ++ Child.all (kids.drop start) := by
      have hdrop : kids.drop start = (kids.drop cursor).drop (start - cursor) := by
        rw [drop_drop, Nat.add_sub_cancel' hle]
      rw [hdrop, ← Child.all_append, take_append_drop]
    have hs' := Child.sorted_drop hs cursor
    rw [hcut] at hs' ⊢
    refine patch_append_skip fun y hy m hm => ?_
    exact ((sorted_append.mp hs').2.2 y hy x (by simp [hx])).trans (hlt m hm)
  · simp

namespace LeafRun

theorem forest (h : LeafRun p e0 kids) : Forest p 0 (kids.map Child.summary) (Child.all kids) :=
  ⟨kids, rfl, h.stored, rfl⟩

theorem suffix (h : LeafRun p e0 (pre ++ post)) : LeafRun p e0 post where
  stored c hc := h.stored c (mem_append_right _ hc)
  summary c hc := h.summary c (mem_append_right _ hc)
  chained := by
    have hchained := h.chained
    rw [map_append] at hchained
    exact hchained.suffix

theorem drop (h : LeafRun p e0 kids) (i : Nat) : LeafRun p e0 (kids.drop i) := by
  rw [← take_append_drop i kids] at h
  exact h.suffix

theorem summaries (h : LeafRun p e0 kids) {some : List Child} (hsome : some ⊆ kids) :
    (some.map fun c => (e0.exact p.digests).node (c.entries.map entryRow)).map EmittedNode.summary =
      some.map Child.summary := by
  rw [map_map]
  exact map_congr_left fun c hc => h.summary c (hsome hc)

/-- The leaves as they are. -/
theorem complete (h : LeafRun p e0 kids) (hfresh : e0.IsFresh) :
    (e0.exact p.digests).complete e0.erased ((Child.all kids).map entryRow) =
      .ok (kids.map fun c => (e0.exact p.digests).node (c.entries.map entryRow)) := by
  have hcomplete := h.chained.complete (memoryless p.digests hfresh).finish_fresh
  rw [flatten_rows, map_map] at hcomplete
  exact hcomplete

/-- Leaves may be skipped as long as the first entry behind them stays. -/
theorem skip (h : LeafRun p e0 (pre ++ post)) {x : Entry} (hx : x ∈ (Child.all post).head?)
    (xs : List Entry) :
    (e0.exact p.digests).complete e0.erased ((Child.all pre ++ x :: xs).map entryRow) =
      ((e0.exact p.digests).complete e0.erased ((x :: xs).map entryRow)).map
        ((pre.map fun c => (e0.exact p.digests).node (c.entries.map entryRow)) ++ ·) := by
  have hchained := h.chained
  rw [map_append] at hchained
  have hhead : entryRow x ∈ (post.map fun c => c.entries.map entryRow).flatten.head? := by
    rw [flatten_rows, List.head?_map]
    exact Option.mem_map_of_mem _ hx
  have hcomplete := hchained.complete_append hhead (xs.map entryRow)
  rw [flatten_rows, map_map] at hcomplete
  rw [map_append, map_cons]
  exact hcomplete

/-- The leaves from `cursor` up to `start` may be reused as long as no mutation reaches the first
entry behind them. -/
theorem reuse (h : LeafRun p e0 kids) (hs : Sorted (Child.all kids)) {cursor start : Nat}
    {ms : List Edit} (hle : cursor ≤ start) (hhead : cursor < start → Untouched kids start ms) :
    (e0.exact p.digests).complete e0.erased
        ((patch (Child.all (kids.drop cursor)) ms).map entryRow) =
      ((e0.exact p.digests).complete e0.erased
        ((patch (Child.all (kids.drop start)) ms).map entryRow)).map
        ((((kids.drop cursor).take (start - cursor)).map fun c =>
          (e0.exact p.digests).node (c.entries.map entryRow)) ++ ·) := by
  rw [Untouched.patch_eq hs hle hhead]
  rcases hle.lt_or_eq with hlt | rfl
  · obtain ⟨x, xs, hx, hlt⟩ := hhead hlt
    have hrun := h.drop cursor
    have hcut : kids.drop cursor = (kids.drop cursor).take (start - cursor) ++ kids.drop start := by
      have hdrop : kids.drop start = (kids.drop cursor).drop (start - cursor) := by
        rw [drop_drop, Nat.add_sub_cancel' hle]
      rw [hdrop, take_append_drop]
    rw [hcut] at hrun
    have hpatch : patch (Child.all (kids.drop start)) ms = x :: patch xs ms := by
      have hskip : patch ([x] ++ xs) ms = [x] ++ patch xs ms :=
        patch_append_skip (by simpa using hlt)
      rw [hx]
      exact hskip
    rw [hpatch]
    exact hrun.skip (by rw [hx]; rfl) _
  · rw [Nat.sub_self, take_zero]
    show (e0.exact p.digests).complete e0.erased
        ((patch (Child.all (kids.drop cursor)) ms).map entryRow) =
      ((e0.exact p.digests).complete e0.erased
        ((patch (Child.all (kids.drop cursor)) ms).map entryRow)).map id
    cases (e0.exact p.digests).complete e0.erased
      ((patch (Child.all (kids.drop cursor)) ms).map entryRow) <;> rfl

end LeafRun

/-- A leaf with a leaf behind it that starts at or before the first mutation is untouched. -/
theorem LeafRun.untouched (h : LeafRun p e0 kids) (hs : Sorted (Child.all kids)) {m : Edit}
    (hms : SortedEdits (m :: ms))
    (hstart : start + 1 < partitionPoint (fun leaf => decide (leaf.firstKey ≤ m.1))
      (kids.map Child.summary)) : Untouched kids start (m :: ms) := by
  obtain ⟨next, hnext, hkey⟩ := of_lt_partitionPoint hstart
  rw [← map_drop] at hnext
  cases hdrop : kids.drop (start + 1) with
  | nil =>
    rw [hdrop] at hnext
    cases hnext
  | cons c' rest =>
    rw [hdrop] at hnext
    cases hnext
    have hlen : start < kids.length := by
      by_contra hge
      rw [drop_eq_nil_of_le (by omega)] at hdrop
      cases hdrop
    have hcons : kids.drop start = kids[start] :: c' :: rest := by
      rw [drop_eq_getElem_cons hlen, hdrop]
    have hrun := h.drop start
    rw [hcons] at hrun
    have hs' := Child.sorted_drop hs start
    rw [hcons] at hs'
    obtain ⟨x, xs, hx⟩ := exists_cons_of_ne_nil
      (hrun.stored kids[start] mem_cons_self).nonempty
    obtain ⟨y, hy, hfirst⟩ := exists_mem_firstKey
      (hrun.stored c' (by simp)).nonempty
    refine ⟨x, xs ++ Child.all (c' :: rest), by rw [hcons, Child.all_cons, hx]; rfl, ?_⟩
    have hlt : x.1 < y.1 := by
      rw [Child.all_cons] at hs'
      exact (sorted_append.mp hs').2.2 x (by simp [hx]) y (by simp [hy])
    have hle : y.1 ≤ m.1 := by
      rw [hfirst]
      exact of_decide_eq_true hkey
    intro n hn
    rcases mem_cons.mp hn with rfl | hn
    · exact hlt.trans_le hle
    · exact (hlt.trans_le hle).trans ((pairwise_cons.mp hms).1 n hn)

/-- What a loop over the leaves from `start` on has done, in terms of the chunking. -/
theorem LeafRun.replayLeaves (hrun : LeafRun p e0 kids) (hs : Sorted (Child.all kids))
    (hnew : LevelEmitter.new p.format true 0 = .ok e0) {r : Replay} (hms : SortedEdits ms)
    (hr : replayLeaves p consumed count ((kids.map Child.summary).drop start) ⟨e0, []⟩ ms = .ok r) :
    ∃ es1 es2 ms1, es2 = Child.all (kids.drop (kids.length - r.after.length)) ∧
      Child.all (kids.drop start) = es1 ++ es2 ∧ ms = ms1 ++ r.pending ∧ SortedEdits r.pending ∧
      r.emitter.FedExactly p e0 (patch es1 ms1) ∧
      (∀ m ∈ ms1, ∀ x ∈ es2, m.1 < x.1) ∧ (∀ x ∈ es1, ∀ m ∈ r.pending, x.1 < m.1) ∧
      (r.resynced = true → consumed r.pending = true ∧ (e0.exact p.digests).feed e0.erased
        ((patch es1 ms1).map entryRow) = .ok (r.emitter.emitted, e0.erased)) ∧
      (r.resynced = false → kids.length ≤ count → es2 = []) := by
  have hfresh := new_isFresh hnew (Nat.zero_le _)
  have hleaf := (new_buffers hnew).leaf_eq
  rw [← map_drop] at hr
  have hfed0 : LeafEmitter.FedExactly p e0 ⟨e0, []⟩ [] := LeafEmitter.new_fedExactly hfresh
  obtain ⟨⟨es1, es2, ms1, hes, hsplit, hafter, hfed, hlt, hgt⟩, hresynced, hall⟩ :=
    replayLeaves_by (LeafEmitter.FedExactly.push hfresh hleaf)
      (hrun.drop start).forest (Child.sorted_drop hs start) hms hfed0 hr
  rw [nil_append] at hfed
  -- the leaves ahead are the last ones
  have hstop : r.after = (kids.drop (kids.length - r.after.length)).map Child.summary := by
    have hsuffix' : r.after <:+ kids.map Child.summary :=
      (replayLeaves_suffix hr).trans (map_drop ▸ drop_suffix start (kids.map Child.summary))
    rw [map_drop]
    simpa using suffix_iff_eq_drop.mp hsuffix'
  have hes2 : es2 = Child.all (kids.drop (kids.length - r.after.length)) :=
    (hafter.eq_of_cids ⟨_, hstop, (hrun.drop _).stored, rfl⟩ rfl).1
  rw [hsplit] at hms
  refine ⟨es1, es2, ms1, hes2, hes, hsplit, (pairwise_append.mp hms).2.1, hfed, hlt, hgt,
    fun hr => ?_, fun hr hcount => ?_⟩
  · obtain ⟨hconsumed, hempty⟩ := hresynced hr
    exact ⟨hconsumed, hfed.erased_eq hfresh hempty ▸ hfed.feed⟩
  · have hlen : ((kids.drop start).map Child.summary).length ≤ count := by
      rw [length_map, length_drop]
      omega
    exact hafter.eq_nil_iff.mp (hall hr hlen)

theorem LeafEmitter.new_eq (hnew : LevelEmitter.new p.format true 0 = .ok e0) :
    LeafEmitter.new p.format = .ok ⟨e0, []⟩ := by
  rw [LeafEmitter.new, hnew]
  rfl

/-- A replay that has stopped with an empty emitter has emitted what it was fed. -/
theorem LeafEmitter.FedExactly.emitted_eq {e' : LeafEmitter} (hfresh : e0.IsFresh)
    (h : e.FedExactly p e0 done)
    (hfeed : (e0.exact p.digests).feed e0.erased (done.map entryRow) = .ok (e.emitted, e0.erased))
    (hflush : e.flush p.digests = .ok e') : e'.emitted = e.emitted := by
  have hcomplete := (memoryless p.digests hfresh).complete_of_feed hfeed
  exact Except.ok.inj ((h.flush hflush).symm.trans hcomplete)

/-- The replay loop, from any old leaf on: its leaf level is the chunking of the patched entries. -/
theorem replayLoop_chunks (hnew : LevelEmitter.new p.format true 0 = .ok e0)
    (hrun : LeafRun p e0 kids) (hs : Sorted (Child.all kids)) {ss : List NodeSummary}
    {out : List EmittedNode} (hms : SortedEdits ms)
    (h : replayLoop p (kids.map Child.summary) fuel cursor ms = .ok (ss, out)) :
    ∃ nodes, (e0.exact p.digests).complete e0.erased
        ((patch (Child.all (kids.drop cursor)) ms).map entryRow) = .ok nodes ∧
      ss = nodes.map EmittedNode.summary := by
  have hfresh := new_isFresh hnew (Nat.zero_le _)
  have hleaf := (new_buffers hnew).leaf_eq
  have hdone : ∀ cursor, ∃ nodes, (e0.exact p.digests).complete e0.erased
      ((patch (Child.all (kids.drop cursor)) []).map entryRow) = .ok nodes ∧
      (kids.map Child.summary).drop cursor = nodes.map EmittedNode.summary := by
    intro cursor
    rw [patch_nil_right]
    exact ⟨_, (hrun.drop cursor).complete hfresh, by
      rw [hrun.summaries (drop_subset _ _), map_drop]⟩
  induction fuel generalizing cursor ms ss out with
  | zero =>
    cases ms with
    | nil =>
      cases h
      exact hdone cursor
    | cons m ms => cases h
  | succ fuel ih =>
    cases ms with
    | nil =>
      cases h
      exact hdone cursor
    | cons m ms =>
      rw [replayLoop, LeafEmitter.new_eq hnew, ok_bind] at h
      set start := max (partitionPoint (fun leaf : NodeSummary => decide (leaf.firstKey ≤ m.1))
        (kids.map Child.summary) - 2) cursor with hstart
      obtain ⟨r, hr, h⟩ := of_bind h
      obtain ⟨e, hfinish, h⟩ := of_bind h
      obtain ⟨e', hpush, hflush⟩ := of_bind hfinish
      obtain ⟨es1, es2, ms1, hes2, hes, hsplit, hms2, hfed, hlt, hgt, hresynced, hall⟩ :=
        hrun.replayLeaves hs hnew hms hr
      -- no mutation reaches the first entry that is replayed, unless nothing is skipped
      have hhead : cursor < start → Untouched kids start (m :: ms) := fun hskip =>
        hrun.untouched hs hms (by omega)
      -- so it is enough to follow the replay and what comes behind it
      obtain ⟨nodes, hnodes, hss⟩ : ∃ nodes, (e0.exact p.digests).complete e0.erased
          ((patch (Child.all (kids.drop start)) (m :: ms)).map entryRow) = .ok nodes ∧
          ss = ((kids.map Child.summary).drop cursor).take (start - cursor) ++
            nodes.map EmittedNode.summary := by
        rw [hes, hsplit]
        cases hsync : r.resynced with
        | true =>
          rw [if_pos hsync] at h
          obtain ⟨⟨ss', out'⟩, hloop, h⟩ := of_bind h
          cases h
          rw [length_map] at hloop
          obtain ⟨nodes, hnodes, rfl⟩ := ih hms2 hloop
          obtain ⟨-, hfeed⟩ := hresynced hsync
          rw [hsync, if_pos rfl, LeafEmitter.push_nil] at hpush
          obtain rfl := Except.ok.inj hpush
          have hemitted := hfed.emitted_eq hfresh hfeed hflush
          refine ⟨r.emitter.emitted ++ nodes, ?_, ?_⟩
          · rw [patch_append hgt hlt, map_append]
            refine (Emitter.complete_append_ok hfeed).trans ?_
            rw [hes2, hnodes]
            rfl
          · rw [LeafEmitter.summaries, hemitted, map_append, append_assoc]
        | false =>
          rw [if_neg (by simp [hsync])] at h
          cases h
          have hfed' := hfed.push hfresh hleaf hpush
          rw [hsync, if_neg (by simp), ← patch_append_right hgt] at hfed'
          refine ⟨e.emitted, ?_, rfl⟩
          rw [hall hsync (by simp), append_nil]
          exact hfed'.flush hflush
      refine ⟨_, (hrun.reuse hs (le_max_right _ _) hhead).trans (congrArg _ hnodes), ?_⟩
      rw [hss, map_append, hrun.summaries, map_take, map_drop]
      exact fun c hc => drop_subset _ _ (take_subset _ _ hc)

/-- Where the chunking succeeds, so does a loop over old leaves. -/
theorem replayLeaves_ok (hnew : LevelEmitter.new p.format true 0 = .ok e0) {olds : List NodeSummary}
    {es : List Entry} (holds : Forest p 0 olds es) (hs : Sorted es) (hms : SortedEdits ms)
    (hfed : e.FedExactly p e0 done) (hmax : e0.AdmitsAll e0 ((done ++ patch es ms).map entryRow))
    (hcomplete : (e0.exact p.digests).complete e0.erased ((done ++ patch es ms).map entryRow) =
      .ok nodes) : ∃ r, replayLeaves p consumed count olds e ms = .ok r := by
  have hfresh := new_isFresh hnew (Nat.zero_le _)
  have hleaf := (new_buffers hnew).leaf_eq
  induction count generalizing olds e done es ms with
  | zero => exact ⟨_, rfl⟩
  | succ count ih =>
    cases olds with
    | nil => exact ⟨_, rfl⟩
    | cons old olds =>
      obtain ⟨l, es', rfl, hold, hrest⟩ := holds.cons
      obtain ⟨⟨n, hn, hleafNode⟩, -, -⟩ := hold.singleton
      obtain ⟨ms1, ms2, rfl, hentries, hlt1, hlt2⟩ := replayEntries_separated hrest hs hms
      rw [patch_append hlt2 hlt1, ← append_assoc] at hmax hcomplete
      obtain ⟨e', hpush⟩ := hfed.push_ok hfresh hleaf hmax hcomplete
      have hshape : ¬ (¬ n.leaf = true ∨ n.keys.length ≠ n.vals.length) := by
        simp [hleafNode.leaf, hleafNode.keys, hleafNode.vals]
      rw [replayLeaves, hn, ok_bind, if_neg hshape, hleafNode.entries_eq, hentries]
      dsimp only
      rw [hpush, ok_bind]
      split
      · exact ⟨_, rfl⟩
      · exact ih hrest (sorted_append.mp hs).2.1 (pairwise_append.mp hms).2.1
          (hfed.push hfresh hleaf hpush) hmax hcomplete

/-- Where the chunking of the patched entries succeeds, so does the replay loop: each round uses up
a mutation. -/
theorem replayLoop_ok (hnew : LevelEmitter.new p.format true 0 = .ok e0) (hrun : LeafRun p e0 kids)
    (hs : Sorted (Child.all kids)) (hms : SortedEdits ms) (hfuel : ms.length ≤ fuel)
    (hmax : e0.AdmitsAll e0 ((patch (Child.all (kids.drop cursor)) ms).map entryRow))
    (hcomplete : (e0.exact p.digests).complete e0.erased
      ((patch (Child.all (kids.drop cursor)) ms).map entryRow) = .ok nodes) :
    ∃ r, replayLoop p (kids.map Child.summary) fuel cursor ms = .ok r := by
  have hfresh := new_isFresh hnew (Nat.zero_le _)
  have hleaf := (new_buffers hnew).leaf_eq
  induction fuel generalizing cursor ms nodes with
  | zero =>
    obtain rfl := eq_nil_of_length_eq_zero (Nat.le_zero.mp hfuel)
    exact ⟨_, rfl⟩
  | succ fuel ih =>
    cases ms with
    | nil => exact ⟨_, rfl⟩
    | cons m ms =>
      rw [replayLoop, LeafEmitter.new_eq hnew, ok_bind]
      set start := max (partitionPoint (fun leaf : NodeSummary => decide (leaf.firstKey ≤ m.1))
        (kids.map Child.summary) - 2) cursor with hstart
      have hhead : cursor < start → Untouched kids start (m :: ms) := fun hskip =>
        hrun.untouched hs hms (by omega)
      have hle : cursor ≤ start := le_max_right _ _
      rw [hrun.reuse hs hle hhead] at hcomplete
      obtain ⟨nodes, hcomplete, -⟩ := map_eq_ok.mp hcomplete
      have hmax : e0.AdmitsAll e0
          ((patch (Child.all (kids.drop start)) (m :: ms)).map entryRow) := by
        rw [Untouched.patch_eq hs hle hhead, map_append] at hmax
        exact hmax.suffix
      obtain ⟨r, hr⟩ : ∃ r, replayLeaves p (fun rest => decide (rest.length < (m :: ms).length))
          (kids.map Child.summary).length ((kids.map Child.summary).drop start) ⟨e0, []⟩
          (m :: ms) = .ok r := by
        rw [← map_drop]
        exact replayLeaves_ok hnew (hrun.drop start).forest (Child.sorted_drop hs start) hms
          (LeafEmitter.new_fedExactly hfresh) hmax hcomplete
      obtain ⟨es1, es2, ms1, hes2, hes, hsplit, hms2, hfed, hlt, hgt, hresynced, hall⟩ :=
        hrun.replayLeaves hs hnew hms hr
      rw [hes, hsplit] at hcomplete hmax
      rw [hr, ok_bind]
      cases hsync : r.resynced with
      | true =>
        rw [patch_append hgt hlt, map_append] at hcomplete hmax
        obtain ⟨hconsumed, hfeed⟩ := hresynced hsync
        obtain ⟨e, hflush⟩ := hfed.flush_ok
          ((memoryless p.digests hfresh).complete_of_feed hfeed)
        have hfinish : r.finish p.digests = .ok e := by
          rw [Replay.finish, hsync, if_pos rfl, LeafEmitter.push_nil, ok_bind, hflush]
        rw [hfinish, ok_bind, if_pos rfl]
        rw [Emitter.complete_append_ok hfeed] at hcomplete
        obtain ⟨nodes', hcomplete, -⟩ := map_eq_ok.mp hcomplete
        rw [hes2] at hcomplete hmax
        have hlen : r.pending.length ≤ fuel := by
          have := of_decide_eq_true hconsumed
          simp only [length_cons] at this hfuel
          omega
        obtain ⟨r', hr'⟩ := ih hms2 hlen hmax.suffix hcomplete
        rw [length_map, hr']
        exact ⟨_, rfl⟩
      | false =>
        rw [hall hsync (by simp), append_nil, patch_append_right hgt] at hcomplete hmax
        rw [← append_nil (patch es1 ms1 ++ _)] at hcomplete hmax
        obtain ⟨e', hpush⟩ := hfed.push_ok hfresh hleaf hmax hcomplete
        rw [append_nil] at hcomplete
        obtain ⟨e, hflush⟩ := (hfed.push hfresh hleaf hpush).flush_ok hcomplete
        have hfinish : r.finish p.digests = .ok e := by
          rw [Replay.finish, hsync, if_neg (by simp), hpush, ok_bind, hflush]
        rw [hfinish, ok_bind]
        exact ⟨_, rfl⟩

end Replay

/-! ### Canonical trees to evaluate the model on -/

/-- A tree that is built in order out of nodes of a table is canonical in the store that has the
table. -/
theorem Table.Proper.canonical {table : Table} {d : Digests} {format : TreeFormat}
    {es : List Entry} {root : Cid} (h : table.Proper d format) (hs : Sorted es)
    (hbuilds : table.builds d format oneAtATime es root = true) :
    ∃ built, Canonical (table.manager d format) ⟨some root, format⟩ es built ∧
      d.CollisionFree ((table.manager d format).nodes ∪ {n | n ∈ built.map EmittedNode.node}) := by
  obtain ⟨out, hbuild, -, hout, hholds⟩ := h.built hs hbuilds
  refine ⟨out, ⟨hholds, rfl, hbuild⟩, h.collisionFree fun n hn => ?_⟩
  obtain ⟨m, hm, rfl⟩ := mem_map.mp hn
  exact hout m hm

/-! ### The replay of a canonical tree -/

section CanonicalReplay

variable {p : Manager} {tree : Tree} {es : List Entry} {built : List EmittedNode}

/-- The leaves of a canonical tree are a run of the chunking. -/
theorem Canonical.leafRun (h : Canonical p tree es built) (hdecoded : p.Decoded)
    (hcf : p.digests.CollisionFree (p.nodes ∪ {n | n ∈ built.map EmittedNode.node}))
    {fuel : Nat} {olds : List NodeSummary} {cids : List Cid}
    (hcollect : collectLeafSummaries p fuel tree = .ok (olds, cids)) :
    ∃ e0 kids, LevelEmitter.new p.format true 0 = .ok e0 ∧ LeafRun p e0 kids ∧
      olds = kids.map Child.summary ∧ es = Child.all kids := by
  obtain ⟨leaves, hleaves, hloads, rfl⟩ := h.leaves hdecoded hcf hcollect
  obtain ⟨e0, hnew, -⟩ := of_bind hleaves
  have hbuf := new_buffers hnew
  obtain ⟨parts, rfl, hchained, rfl⟩ := leafChunks_chained hnew hleaves
  have hne : ∀ part ∈ parts, part ≠ [] := fun part hpart => by
    simpa using hchained.ne_nil _ (mem_map_of_mem hpart)
  -- the leaf made of a part
  have hnode : ∀ part : List Entry, (e0.exact p.digests).node (part.map entryRow) =
      .of p.digests (Node.ofRows p.format true 0 (part.map entryRow)) := fun part => by
    show EmittedNode.of p.digests (Node.ofRows e0.format e0.leaf e0.level _) = _
    rw [hbuf.format_eq, hbuf.leaf_eq, hbuf.level_eq]
  have hforest : ∀ part ∈ parts,
      Forest p 0 [((e0.exact p.digests).node (part.map entryRow)).summary] part := by
    intro part hpart
    have hload := hloads _ (mem_map_of_mem hpart)
    rw [hnode] at hload ⊢
    exact (isLeaf_ofRows p.format (hne part hpart)
      (Sorted.of_mem_flatten h.holds.sorted hpart)).forest hload
  refine ⟨e0, parts.map fun part =>
    ⟨((e0.exact p.digests).node (part.map entryRow)).summary.cid, part⟩, hnew, ⟨?_, ?_, ?_⟩, ?_, ?_⟩
  · intro c hc
    obtain ⟨part, hpart, rfl⟩ := mem_map.mp hc
    exact (hforest part hpart).singleton.1
  · intro c hc
    obtain ⟨part, hpart, rfl⟩ := mem_map.mp hc
    obtain ⟨-, hkey, hcount⟩ := (hforest part hpart).singleton
    rw [Child.summary, ← hkey, ← hcount]
  · rw [map_map]
    exact hchained
  · rw [map_map, map_map]
    refine map_congr_left fun part hpart => ?_
    obtain ⟨-, hkey, hcount⟩ := (hforest part hpart).singleton
    rw [Function.comp_apply, Function.comp_apply, Child.summary, ← hkey, ← hcount]
  · rw [Child.all, flatMap_map, flatMap_id']

/-- The leaf level that the replay loop computes over a canonical tree is the chunking of the
patched entries from the beginning. Unless a size bound can overflow a `u64`, the loop fails only
where the chunking does. -/
theorem replayLoop_canonical (h : Canonical p tree es built) (hdecoded : p.Decoded)
    (hcf : p.digests.CollisionFree (p.nodes ∪ {n | n ∈ built.map EmittedNode.node}))
    {depth : Nat} {olds : List NodeSummary} {cids : List Cid}
    (hcollect : collectLeafSummaries p depth tree = .ok (olds, cids)) {ms : List Edit}
    (hms : SortedEdits ms) :
    (∀ fuel ss out leaves, replayLoop p olds fuel 0 ms = .ok (ss, out) →
      leafChunks p.digests p.format (patch es ms) = .ok leaves →
      ss = leaves.map EmittedNode.summary) ∧
    (LevelEmitter.Fits p.format true ((patch es ms).map entryRow) → ∀ fuel ss, ms.length ≤ fuel →
      ((∃ out, replayLoop p olds fuel 0 ms = .ok (ss, out)) ↔
        ∃ leaves, leafChunks p.digests p.format (patch es ms) = .ok leaves ∧
          ss = leaves.map EmittedNode.summary)) := by
  obtain ⟨e0, kids, hnew, hrun, rfl, rfl⟩ := h.leafRun hdecoded hcf hcollect
  have hs := h.holds.sorted
  have hfresh := new_isFresh hnew (Nat.zero_le _)
  have hbuf := new_buffers hnew
  refine ⟨?_, ?_⟩
  · intro fuel ss out leaves hloop hleaves
    obtain ⟨nodes, hnodes, rfl⟩ := replayLoop_chunks hnew hrun hs hms hloop
    rw [drop_zero, leafChunks_exact hnew hleaves] at hnodes
    rw [Except.ok.inj hnodes]
  · intro hfits fuel ss hfuel
    constructor
    · rintro ⟨out, hloop⟩
      obtain ⟨nodes, hnodes, rfl⟩ := replayLoop_chunks hnew hrun hs hms hloop
      rw [drop_zero] at hnodes
      exact ⟨nodes, leafChunks_of_exact hnew hfits hnodes, rfl⟩
    · rintro ⟨leaves, hleaves, rfl⟩
      have hexact := leafChunks_exact hnew hleaves
      have hmax : e0.AdmitsAll e0 ((patch (Child.all (kids.drop 0)) ms).map entryRow) := by
        rw [← hbuf.format_eq, ← hbuf.leaf_eq] at hfits
        exact hfresh.admitsAll hfits
      obtain ⟨⟨ss, out⟩, hloop⟩ := replayLoop_ok hnew hrun hs hms hfuel hmax hexact
      obtain ⟨nodes, hnodes, rfl⟩ := replayLoop_chunks hnew hrun hs hms hloop
      rw [drop_zero, hexact] at hnodes
      rw [← Except.ok.inj hnodes] at hloop
      exact ⟨out, hloop⟩

end CanonicalReplay

section

open Reversed

/-- Without `u`, the other leaves are emitted as they were. -/
theorem replayLoop_canonical_delete : ∃ olds cids leaves out,
    collectLeafSummaries manager 4 uabcd = .ok (olds, cids) ∧
    leafChunks manager.digests format [a, b, c, d] = .ok leaves ∧
    replayLoop manager olds 1 0 [(u.1, none)] = .ok (leaves.map EmittedNode.summary, out) := by
  obtain ⟨built, hcanonical, hcf⟩ := proper.canonical sorted_uabcd builds_uabcd
  obtain ⟨⟨olds, cids⟩, hcollect⟩ := Result.exists_of_isOk (show
    (collectLeafSummaries manager 4 uabcd).isOk = true by decide +kernel)
  have hpatch : patch [u, a, b, c, d] [(u.1, none)] = [a, b, c, d] := by decide +kernel
  obtain ⟨leaves, hleaves⟩ := Result.exists_of_isOk (show
    (leafChunks manager.digests format [a, b, c, d]).isOk = true by decide +kernel)
  have hreplay := (replayLoop_canonical hcanonical proper.decoded hcf hcollect
    (pairwise_singleton _ (u.1, none))).2
  rw [hpatch] at hreplay
  obtain ⟨out, hout⟩ := (hreplay (by unfold LevelEmitter.Fits; decide +kernel) 1
    (leaves.map EmittedNode.summary) le_rfl).mpr ⟨leaves, hleaves, rfl⟩
  exact ⟨olds, cids, leaves, out, hcollect, hleaves, hout⟩

end

end Prolly
