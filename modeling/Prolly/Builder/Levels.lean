import Prolly.Chunks
import Prolly.Builder

/-!
# Prolly.Builder.Levels

The levels of a build of `SortedBatchBuilder`. Its leaves are the chunks of the entries, in order
(`leafChunks`). The cascade above them may lose the order of its nodes, but it makes every parent
from nodes that were emitted before (`Grown`).
-/

namespace Prolly

open SortedAssoc (Sorted)
open LevelEmitter (entryRow childRow new_buffers new_isFresh)
open List

/-! ### The leaves of a build -/

variable {d : Digests} {format : TreeFormat} {es : List Entry} {leaves : List EmittedNode}
  {e0 : LevelEmitter}

/-- The leaves are those made from the parts of the entries. -/
theorem leafChunks_parts (h : leafChunks d format es = .ok leaves) :
    ∃ parts : List (List Entry), es = parts.flatten ∧ (∀ part ∈ parts, part ≠ []) ∧
      leaves = parts.map fun part =>
        .of d (Node.ofRows format true 0 (part.map entryRow)) := by
  obtain ⟨chunks, hne, hrows, rfl⟩ := leafChunks_emits h
  obtain ⟨parts, rfl, rfl⟩ := exists_chunks (by simpa using hrows)
  refine ⟨parts, rfl, fun part hpart => ?_, by simp [Function.comp_def]⟩
  simpa using hne _ (mem_map_of_mem hpart)

theorem leafChunks_eq (d : Digests) (format : TreeFormat) (es : List Entry) :
    leafChunks d format es = (do
      let e ← LevelEmitter.new format true 0
      (e.real d).complete e (es.map entryRow)) := by
  unfold leafChunks
  cases hnew : LevelEmitter.new format true 0 with
  | error error => rfl
  | ok e =>
    simp only [ok_bind]
    rw [LevelEmitter.pushLeaves_eq e (new_buffers hnew)]
    unfold Emission.Emitter.complete
    cases (e.real d).feed e (es.map entryRow) with
    | error error => rfl
    | ok r =>
      show (r.2.finish d).bind _ = (r.2.finish d).map _
      cases r.2.finish d <;> rfl

/-- The rows of leaves count nothing. -/
theorem counted_entryRow {leaf : Bool} (hleaf : leaf = true) (rows : List Node.Row) :
    ∀ row ∈ rows, LevelEmitter.Counted leaf row :=
  fun _ _ hfalse => absurd (hleaf.symm.trans hfalse) (by simp)

/-- Leaves that are chunked with an upper bound are so without it. -/
theorem leafChunks_exact (hnew : LevelEmitter.new format true 0 = .ok e0)
    (h : leafChunks d format es = .ok leaves) :
    (e0.exact d).complete e0.erased (es.map entryRow) = .ok leaves := by
  have hfresh := new_isFresh hnew (Nat.zero_le _)
  rw [leafChunks_eq, hnew, ok_bind] at h
  exact LevelEmitter.complete_of_ok hfresh hfresh.tracks
    (counted_entryRow (new_buffers hnew).leaf_eq _) h

/-- Where no upper bound overflows, leaves that are chunked without one are so with it. -/
theorem leafChunks_of_exact (hnew : LevelEmitter.new format true 0 = .ok e0)
    (hfits : LevelEmitter.Fits format true (es.map entryRow))
    (h : (e0.exact d).complete e0.erased (es.map entryRow) = .ok leaves) :
    leafChunks d format es = .ok leaves := by
  have hfresh := new_isFresh hnew (Nat.zero_le _)
  have hbuf := new_buffers hnew
  rw [← hbuf.format_eq, ← hbuf.leaf_eq] at hfits
  rw [leafChunks_eq, hnew, ok_bind]
  exact LevelEmitter.complete_of_admits hfresh hfresh.tracks (counted_entryRow hbuf.leaf_eq _)
    (hfresh.admitsAll hfits) h

/-- Leaves are cut one from the next. -/
theorem leafChunks_chained (hnew : LevelEmitter.new format true 0 = .ok e0)
    (h : leafChunks d format es = .ok leaves) :
    ∃ parts : List (List Entry), es = parts.flatten ∧
      (e0.exact d).Chained (parts.map (List.map entryRow)) ∧
      leaves = parts.map fun part => (e0.exact d).node (part.map entryRow) := by
  have hfresh := new_isFresh hnew (Nat.zero_le _)
  obtain ⟨chunks, hflat, hchained, rfl⟩ :=
    (LevelEmitter.memoryless d hfresh).complete_eq_ok.mp (leafChunks_exact hnew h)
  obtain ⟨parts, rfl, rfl⟩ := exists_chunks hflat.symm
  exact ⟨parts, rfl, hchained, by rw [map_map]; rfl⟩

/-! ### What the nodes of a build are made of -/

def EmittedNode.row (n : EmittedNode) : Node.Row := childRow n.summary

/-- Leaves, and parents of such nodes, all of them emitted. -/
inductive Grown (d : Digests) (format : TreeFormat) (emitted : EmittedNode → Prop)
    (leaves : List EmittedNode) : EmittedNode → Prop
  | leaf {n : EmittedNode} (hleaf : n ∈ leaves) (hn : emitted n) : Grown d format emitted leaves n
  | parent {level : Nat} {kids : List EmittedNode}
      (hkids : ∀ k ∈ kids, Grown d format emitted leaves k)
      (hn : emitted (.of d (Node.ofRows format false level (kids.map EmittedNode.row)))) :
      Grown d format emitted leaves
        (.of d (Node.ofRows format false level (kids.map EmittedNode.row)))

section Grown

variable {d : Digests} {format : TreeFormat} {emitted : EmittedNode → Prop}
  {leaves kids out : List EmittedNode} {level room : Nat} {n : EmittedNode}
  {ps ps' : List ParentLevel}

/-- Nodes emitted over grown ones. -/
theorem Emits.grown (h : Emits d format false level (kids.map EmittedNode.row) out [])
    (hkids : ∀ k ∈ kids, Grown d format emitted leaves k) (hout : ∀ n ∈ out, emitted n) :
    ∀ n ∈ out, Grown d format emitted leaves n := by
  obtain ⟨chunks, -, hrows, rfl⟩ := h
  obtain ⟨parts, rfl, rfl⟩ := exists_chunks (by simpa using hrows)
  intro n hn
  have hemitted := hout n hn
  obtain ⟨c, hc, rfl⟩ := mem_map.mp hn
  obtain ⟨part, hpart, rfl⟩ := mem_map.mp hc
  exact .parent (fun k hk => hkids k (mem_flatten_of_mem hpart hk)) hemitted

structure ParentLevel.OverGrown (d : Digests) (format : TreeFormat) (emitted : EmittedNode → Prop)
    (leaves : List EmittedNode) (state : ParentLevel) : Prop where
  first : ∀ s ∈ state.pendingFirst, ∃ n, Grown d format emitted leaves n ∧ n.summary = s
  emitter : ∀ e ∈ state.emitter, ∃ (level : Nat) (kids : List EmittedNode),
    (∀ k ∈ kids, Grown d format emitted leaves k) ∧
    e.Buffers format false level (kids.map EmittedNode.row)

theorem pushChild_grown {e e' : LevelEmitter} (hkids : ∀ k ∈ kids, Grown d format emitted leaves k)
    (hbuf : e.Buffers format false level (kids.map EmittedNode.row))
    (hn : Grown d format emitted leaves n) (h : e.pushChild d n.summary = .ok (out, e'))
    (hout : ∀ n ∈ out, emitted n) :
    (∃ kids' : List EmittedNode, (∀ k ∈ kids', Grown d format emitted leaves k) ∧
      e'.Buffers format false level (kids'.map EmittedNode.row)) ∧
      ∀ n ∈ out, Grown d format emitted leaves n := by
  have hfeed : e.pushChildren d [n.summary] = .ok (out, e') := by
    simp [LevelEmitter.pushChildren, LevelEmitter.feed, h]
  obtain ⟨rest, hemits, hbuf'⟩ := LevelEmitter.pushChildren_spec hbuf hfeed
  have hrows : kids.map EmittedNode.row ++ [n.summary].map childRow =
      (kids ++ [n]).map EmittedNode.row := by simp [EmittedNode.row]
  rw [hrows] at hemits
  obtain ⟨done, todo, hsplit, rfl, hdone⟩ := hemits.split_rows
  have hall : ∀ k ∈ done ++ todo, Grown d format emitted leaves k := by
    rw [← hsplit]
    simpa [or_imp, forall_and] using ⟨hkids, hn⟩
  obtain ⟨hdone', htodo⟩ := forall_mem_append.mp hall
  exact ⟨⟨todo, htodo, hbuf'⟩, hdone.grown hdone' hout⟩

theorem ParentLevel.OverGrown.push_grown {state state' : ParentLevel}
    (hstate : state.OverGrown d format emitted leaves) (hn : Grown d format emitted leaves n)
    (h : state.push d format level n.summary = .ok (out, state')) (hout : ∀ n ∈ out, emitted n) :
    state'.OverGrown d format emitted leaves ∧ ∀ n ∈ out, Grown d format emitted leaves n := by
  match state, hstate with
  | ⟨first, some e⟩, hstate =>
    obtain ⟨⟨nodes, e'⟩, hpush, h⟩ := of_bind h
    cases h
    obtain ⟨level', kids, hkids, hbuf⟩ := hstate.emitter e rfl
    obtain ⟨⟨kids', hkids', hbuf'⟩, hnodes⟩ := pushChild_grown hkids hbuf hn hpush hout
    refine ⟨⟨hstate.first, ?_⟩, hnodes⟩
    rintro e ⟨⟩
    exact ⟨level', kids', hkids', hbuf'⟩
  | ⟨none, none⟩, _ =>
    cases h
    refine ⟨⟨?_, by simp⟩, by simp⟩
    rintro s ⟨⟩
    exact ⟨n, hn, rfl⟩
  | ⟨some first, none⟩, hstate =>
    obtain ⟨e, hstart, h⟩ := of_bind h
    obtain ⟨⟨nodes, e'⟩, hpush, h⟩ := of_bind h
    cases h
    obtain ⟨n1, hn1, rfl⟩ := hstate.first first rfl
    obtain ⟨e0, hnew, hstart⟩ := of_bind hstart
    obtain ⟨⟨early, e1⟩, hfirst, hstart⟩ := of_bind hstart
    dsimp only at hstart
    split at hstart
    · cases hstart
    next hearly =>
    cases hstart
    obtain rfl : early = [] := not_not.mp hearly
    obtain ⟨⟨kids, hkids, hbuf⟩, -⟩ := pushChild_grown (forall_mem_nil _)
      (new_buffers hnew) hn1 hfirst (by simp)
    obtain ⟨⟨kids', hkids', hbuf'⟩, hnodes⟩ := pushChild_grown hkids hbuf hn hpush hout
    refine ⟨⟨by simp, ?_⟩, hnodes⟩
    rintro e ⟨⟩
    exact ⟨level, kids', hkids', hbuf'⟩

theorem sendUp_grown
    {step : NodeSummary → List ParentLevel → Result (List EmittedNode × List ParentLevel)}
    (hstep : ∀ {n : EmittedNode} {ps ps' : List ParentLevel} {out : List EmittedNode},
      (∀ state ∈ ps, state.OverGrown d format emitted leaves) → Grown d format emitted leaves n →
      step n.summary ps = .ok (out, ps') → (∀ n ∈ out, emitted n) →
      ∀ state ∈ ps', state.OverGrown d format emitted leaves) {nodes : List EmittedNode}
    (hps : ∀ state ∈ ps, state.OverGrown d format emitted leaves)
    (hnodes : ∀ n ∈ nodes, Grown d format emitted leaves n)
    (h : sendUp step nodes ps = .ok (out, ps')) (hout : ∀ n ∈ out, emitted n) :
    ∀ state ∈ ps', state.OverGrown d format emitted leaves := by
  induction nodes generalizing ps out with
  | nil =>
    cases h
    exact hps
  | cons node nodes ih =>
    obtain ⟨⟨sent, ps1⟩, hnode, h⟩ := of_bind h
    obtain ⟨⟨rest, ps2⟩, hrest, h⟩ := of_bind h
    cases h
    obtain ⟨hn, hnodes⟩ := forall_mem_cons.mp hnodes
    obtain ⟨hsent, hrest'⟩ := forall_mem_append.mp hout
    exact ih (hstep hps hn hnode (forall_mem_cons.mp hsent).2) hnodes hrest hrest'

theorem cascade_grown (hps : ∀ state ∈ ps, state.OverGrown d format emitted leaves)
    (hn : Grown d format emitted leaves n)
    (h : cascade lastFirst d format room level n.summary ps = .ok (out, ps'))
    (hout : ∀ n ∈ out, emitted n) : ∀ state ∈ ps', state.OverGrown d format emitted leaves := by
  induction room generalizing level n ps ps' out with
  | zero => cases h
  | succ room ih =>
    cases ps with
    | nil =>
      cases h
      intro state hstate
      obtain rfl := mem_singleton.mp hstate
      refine ⟨?_, by simp⟩
      rintro s ⟨⟩
      exact ⟨n, hn, rfl⟩
    | cons state above =>
      obtain ⟨⟨nodes, state'⟩, hpush, h⟩ := of_bind h
      obtain ⟨arranged, harranged, h⟩ := of_bind h
      obtain ⟨⟨sent, above'⟩, hsend, h⟩ := of_bind h
      cases h
      cases harranged
      obtain ⟨hstate, habove⟩ := forall_mem_cons.mp hps
      have hmem : ∀ m ∈ nodes, emitted m := fun m hm =>
        hout m (mem_of_sendUp hsend m (mem_reverse.mpr hm))
      obtain ⟨hstate', hnodes⟩ := hstate.push_grown hn hpush hmem
      refine forall_mem_cons.mpr ⟨hstate', ?_⟩
      exact sendUp_grown ih habove (fun m hm => hnodes m (mem_reverse.mp hm)) hsend hout

theorem finishParents_grown {root : NodeSummary}
    (hps : ∀ state ∈ ps, state.OverGrown d format emitted leaves)
    (h : HierarchicalEmitter.finishParents lastFirst d format room level ps = .ok (root, out))
    (hout : ∀ n ∈ out, emitted n) : ∃ n, Grown d format emitted leaves n ∧ n.summary = root := by
  induction room generalizing level ps out with
  | zero => cases h
  | succ room ih =>
    match ps, hps with
    | [], _ => cases h
    | ⟨_, some e⟩ :: above, hps =>
      obtain ⟨nodes, hfinish, h⟩ := of_bind h
      obtain ⟨⟨sent, above'⟩, hsend, h⟩ := of_bind h
      obtain ⟨⟨root', rest⟩, hrest, h⟩ := of_bind h
      cases h
      obtain ⟨hstate, habove⟩ := forall_mem_cons.mp hps
      obtain ⟨hsent, hrest'⟩ := forall_mem_append.mp hout
      obtain ⟨level', kids, hkids, hbuf⟩ := hstate.emitter e rfl
      have hnodes := (LevelEmitter.finish_spec hbuf hfinish).grown hkids
        fun m hm => hsent m (mem_of_sendUp hsend m hm)
      exact ih (sendUp_grown cascade_grown habove hnodes hsend hsent) hrest hrest'
    | ⟨some first, none⟩ :: above, hps =>
      cases h
      exact (forall_mem_cons.mp hps).1.first root rfl
    | ⟨none, none⟩ :: above, hps => exact ih (forall_mem_cons.mp hps).2 h hout

/-- The root of a build is grown from its leaves. -/
theorem buildSorted_grown {es : List Entry} {root : Cid} (hs : SortedAssoc.Sorted es)
    (h : buildSorted d format es = .ok (some root, out)) :
    ∃ leaves n, leafChunks d format es = .ok leaves ∧ (∀ l ∈ leaves, l ∈ out) ∧
      Grown d format (· ∈ out) leaves n ∧ n.summary.cid = root := by
  obtain ⟨leaves, sent, parents, top, rest, hleaves, hsend, hcrown, hroot, rfl⟩ :=
    (buildSortedWith_eq_ok hs).mp h
  have hemitted : ∀ m ∈ leaves, m ∈ sent ++ rest := fun m hm =>
    mem_append_left _ (mem_of_sendUp hsend m hm)
  have hmem : ∀ m ∈ leaves, Grown d format (· ∈ sent ++ rest) leaves m := fun m hm =>
    .leaf hm (hemitted m hm)
  have hparents := sendUp_grown cascade_grown (by simp) hmem hsend
    fun m hm => mem_append_left _ hm
  cases parents with
  | nil =>
    cases hcrown
    cases hroot
  | cons state above =>
    obtain ⟨⟨top', rest'⟩, htop, hcrown⟩ := map_eq_ok.mp hcrown
    cases hcrown
    cases hroot
    obtain ⟨n, hn, rfl⟩ := finishParents_grown hparents htop fun m hm => mem_append_right _ hm
    exact ⟨leaves, n, hleaves, hemitted, hn, rfl⟩

end Grown

end Prolly
