import Prolly.Write.Canonical

/-!
# Prolly.Write.Islands

Islands of mutations, replayed independently of each other and joined. An island begins with leaves
of context whose first entry no mutation reaches, and counts only if its emitter is empty again
before the next island begins. What it replaces is then what a chunking from the beginning would
have emitted there, so that the joined leaf level is the one of the replay loop.
-/

namespace Prolly

open SortedAssoc (Sorted SortedEdits patch)
open Emission (Emitter)
open LevelEmitter (entryRow)
open List

section Islands

variable {p : Manager} {e0 : LevelEmitter} {kids : List Child}

/-- No mutation reaches the first entry of an island that does not begin with the first leaf. -/
theorem planMutationIslands_untouched (hrun : LeafRun p e0 kids) (hs : Sorted (Child.all kids))
    (hne : kids.map Child.summary ≠ []) {ms : List Edit} (hms : SortedEdits ms) :
    ∀ i ∈ planMutationIslands (kids.map Child.summary) ms, 0 < i.leafStart →
      Untouched kids i.leafStart i.mutations := by
  intro i hi hpos
  obtain ⟨hall, hanchored⟩ := planMutationIslands_spec hne ms
  obtain ⟨m, rest, hmutations, hle⟩ := (hanchored i hi).2 hpos
  rw [← hall] at hms
  have hsub : SortedEdits i.mutations := hms.sublist (sublist_flatten_of_mem (mem_map_of_mem hi))
  rw [hmutations] at hsub ⊢
  rw [targetLeaf] at hle
  exact hrun.untouched hs hsub (by omega)

/-- What an island that is proved independent has emitted is the chunking of the leaves it
replaces. -/
theorem replayMutationIsland_chunks (hnew : LevelEmitter.new p.format true 0 = .ok e0)
    (hrun : LeafRun p e0 kids) (hs : Sorted (Child.all kids)) {island : MutationIsland}
    {r : IslandReplay} (hms : SortedEdits island.mutations)
    (h : replayMutationIsland p (kids.map Child.summary) island = .ok r)
    (hproved : r.provedIndependent = true) :
    r.start = island.leafStart ∧ r.start ≤ r.stop ∧ island.mutations ≠ [] ∧ ∃ es1,
      Child.all (kids.drop r.start) = es1 ++ Child.all (kids.drop r.stop) ∧
      (∀ x ∈ es1, x ∈ Child.all (kids.take r.stop)) ∧
      (∀ m ∈ island.mutations, ∀ x ∈ Child.all (kids.drop r.stop), m.1 < x.1) ∧
      (e0.exact p.digests).feed e0.erased ((patch es1 island.mutations).map entryRow) =
        .ok (r.emitted, e0.erased) := by
  have hfresh := LevelEmitter.new_isFresh hnew (Nat.zero_le _)
  rw [replayMutationIsland] at h
  split at h
  · cases h
  next hshape =>
  rw [LeafEmitter.new_eq hnew, ok_bind] at h
  obtain ⟨rep, hrep, h⟩ := of_bind h
  obtain ⟨e, hflush, h⟩ := of_bind h
  cases h
  obtain ⟨es1, es2, ms1, rfl, hes, hsplit, -, hfed, hlt, -, hresynced, -⟩ :=
    hrun.replayLeaves hs hnew hms hrep
  obtain ⟨hconsumed, hfeed⟩ := hresynced (Bool.and_eq_true _ _ ▸ hproved).1
  -- an island that resynchronizes has used up its mutations
  have hpending : rep.pending = [] := by simpa using hconsumed
  rw [hpending, append_nil] at hsplit
  subst hsplit
  refine ⟨rfl, ?_, fun hnil => hshape (by simp [hnil]), es1, ?_, ?_, ?_, ?_⟩
  · have hlen := (replayLeaves_suffix hrep).length_le
    rw [length_drop] at hlen
    show island.leafStart ≤ (kids.map Child.summary).length - rep.after.length
    omega
  · rw [length_map]
    exact hes
  · intro x hx
    rw [length_map]
    have hmem : x ∈ Child.all kids := by
      rw [← take_append_drop island.leafStart kids, Child.all_append, hes]
      simp [hx]
    rw [← take_append_drop (kids.length - rep.after.length) kids, Child.all_append] at hmem
    refine (mem_append.mp hmem).resolve_right fun hx' => ?_
    -- an entry on both sides of the cut would come before itself
    have hs' := Child.sorted_drop hs island.leafStart
    rw [hes] at hs'
    exact lt_irrefl _ ((SortedAssoc.sorted_append.mp hs').2.2 x hx x hx')
  · rw [length_map]
    exact hlt
  · rw [hfed.emitted_eq hfresh hfeed hflush]
    exact hfeed

/-- The joined leaf level, from any old leaf on, is the chunking of the patched entries. No mutation
falls before that leaf. -/
theorem mergeIslandReplays_chunks (hnew : LevelEmitter.new p.format true 0 = .ok e0)
    (hrun : LeafRun p e0 kids) (hs : Sorted (Child.all kids)) {islands : List MutationIsland}
    {replays : List IslandReplay} {cursor : Nat} {ss : List NodeSummary} {out : List EmittedNode}
    (hms : SortedEdits (islands.flatMap MutationIsland.mutations))
    (hahead : ∀ i ∈ islands, ∀ m ∈ i.mutations, ∀ x ∈ Child.all (kids.take i.leafStart), x.1 < m.1)
    (huntouched : ∀ i ∈ islands, 0 < i.leafStart → Untouched kids i.leafStart i.mutations)
    (hreplays : islands.mapM (replayMutationIsland p (kids.map Child.summary)) = .ok replays)
    (h : mergeIslandReplays (kids.map Child.summary) cursor replays = .ok (ss, out)) :
    (∀ m ∈ islands.flatMap MutationIsland.mutations, ∀ x ∈ Child.all (kids.take cursor),
      x.1 < m.1) ∧
      ∃ nodes, (e0.exact p.digests).complete e0.erased
        ((patch (Child.all (kids.drop cursor)) (islands.flatMap MutationIsland.mutations)).map
          entryRow) = .ok nodes ∧ ss = nodes.map EmittedNode.summary := by
  have hfresh := LevelEmitter.new_isFresh hnew (Nat.zero_le _)
  induction islands generalizing replays cursor ss out with
  | nil =>
    cases hreplays
    cases h
    rw [flatMap_nil, SortedAssoc.patch_nil_right]
    exact ⟨by simp, _, (hrun.drop cursor).complete hfresh, by
      rw [hrun.summaries (drop_subset _ _), map_drop]⟩
  | cons island islands ih =>
    rw [mapM_cons] at hreplays
    obtain ⟨r, hr, hreplays⟩ := of_bind hreplays
    obtain ⟨rs, hrs, hcons⟩ := of_bind hreplays
    cases hcons
    rw [mergeIslandReplays] at h
    split at h
    · cases h
    next hshape =>
    obtain ⟨⟨ss', out'⟩, hmerge, h⟩ := of_bind h
    cases h
    rw [flatMap_cons] at hms ⊢
    obtain ⟨hms1, hms2, hmm⟩ := pairwise_append.mp hms
    have hproved : r.provedIndependent = true := by
      by_contra hnot
      exact hshape (.inl hnot)
    obtain ⟨hstart, hle, hne, es1, hes, hmem, hlt, hfeed⟩ :=
      replayMutationIsland_chunks hnew hrun hs hms1 hr hproved
    -- the mutations of later islands lie behind what this one replaces
    obtain ⟨hafter, nodes, hnodes, rfl⟩ := ih hms2 (fun i hi => hahead i (.tail _ hi))
      (fun i hi => huntouched i (.tail _ hi)) hrs hmerge
    have hcursor : cursor ≤ r.start := by
      by_contra hnot
      exact hshape (.inr (.inl (by omega)))
    have hhead : cursor < r.start → Untouched kids r.start (island.mutations ++
        islands.flatMap MutationIsland.mutations) := by
      intro hskip
      obtain ⟨x, xs, hx, hfirst⟩ := huntouched island mem_cons_self (by omega)
      obtain ⟨m, rest, hm⟩ := exists_cons_of_ne_nil hne
      have hm' : m ∈ island.mutations := by simp [hm]
      refine ⟨x, xs, hstart ▸ hx, fun n hn => ?_⟩
      rcases mem_append.mp hn with hn | hn
      · exact hfirst n hn
      · exact (hfirst m hm').trans (hmm m hm' n hn)
    have hreplayed : (e0.exact p.digests).complete e0.erased
        ((patch (Child.all (kids.drop r.start)) (island.mutations ++
          islands.flatMap MutationIsland.mutations)).map entryRow) = .ok (r.emitted ++ nodes) := by
      rw [hes, SortedAssoc.patch_append (fun x hx m hm => hafter m hm x (hmem x hx)) hlt,
        map_append]
      refine (Emitter.complete_append_ok hfeed).trans ?_
      rw [hnodes]
      rfl
    refine ⟨fun m hm x hx => ?_, _, (hrun.reuse hs hcursor hhead).trans (congrArg _ hreplayed), ?_⟩
    · -- the entries before a leaf are among those before a later one
      have htake : ∀ {j : Nat}, cursor ≤ j → x ∈ Child.all (kids.take j) := by
        intro j hj
        obtain ⟨c, hc, hx⟩ := mem_flatMap.mp hx
        exact mem_flatMap.mpr ⟨c, take_subset_take_left kids hj hc, hx⟩
      rcases mem_append.mp hm with hm | hm
      · exact hahead island mem_cons_self m hm x (htake (hstart ▸ hcursor))
      · exact hafter m hm x (htake (hcursor.trans hle))
    rw [map_append, map_append, hrun.summaries, map_take, map_drop, append_assoc]
    exact fun c hc => drop_subset _ _ (take_subset _ _ hc)

end Islands

/-! ### A tree with two distant mutations -/

namespace Distant

/-- Every entry ends a leaf, and no child ends a parent. -/
def format : TreeFormat where
  chunking := { rule := .hashThreshold 2, min := 1, target := 2, max := 64, hashSeed := 0 }
  nodeLayout := .plain

def entry (i : Nat) : Entry := ([UInt8.ofNat i], [0])

def leaf (i : Nat) : Node := Node.ofRows format true 0 [entryRow (entry i)]

def cid (i : Nat) : Cid := ⟨UInt8.ofNat i :: replicate 31 0, rfl⟩

def root : Node :=
  Node.ofRows format false 1 ((range 52).map fun i =>
    LevelEmitter.childRow ⟨cid (i + 1), (entry i).1, 1⟩)

/-- The tree with 52 leaves. -/
def table : Table := (root, cid 53) :: (range 52).map fun i => (leaf i, cid (i + 1))

/-- A leaf is named by the byte of its key. Only the seed of the leaf level hashes below the
threshold. -/
def digests : Digests where
  sha256 bytes := if bytes.length = 69 then cid ((bytes.getD 66 0).toNat + 1) else cid 53
  xxh64 _ seed := if seed = 0 then 0 else 0xffffffff

def manager : Manager := table.manager digests format

def entries : List Entry := (range 52).map entry

def mutations : List Edit := [((entry 0).1, some [1]), ((entry 50).1, some [1])]

/-- Four threads. -/
def policy : ExecutionPolicy := { width := 4, readWidth := 4, waveSize := 16, enabled := true }

def accepts : Bool :=
  match collectLeafSummaries manager 2 ⟨some (cid 53), format⟩ with
  | .ok (olds, _) =>
    match tryIslands manager policy 1 olds mutations with
    | .ok (some _) => true
    | _ => false
  | .error _ => false

/-- The tree is canonical; two islands are formed and accepted. -/
theorem evaluated : table.Proper digests format ∧ Sorted entries ∧
    table.builds digests format oneAtATime entries (cid 53) = true ∧ accepts = true ∧
    SortedEdits mutations ∧
    LevelEmitter.Fits format true ((patch entries mutations).map entryRow) := by
  unfold LevelEmitter.Fits
  decide +kernel

theorem accepted : ∃ olds cids replayed,
    collectLeafSummaries manager 2 ⟨some (cid 53), format⟩ = .ok (olds, cids) ∧
      tryIslands manager policy 1 olds mutations = .ok (some replayed) := by
  have haccepted := evaluated.2.2.2.1
  unfold accepts at haccepted
  split at haccepted
  · next olds cids hcollect =>
    split at haccepted
    · next replayed hislands => exact ⟨olds, cids, replayed, hcollect, hislands⟩
    · cases haccepted
  · cases haccepted

end Distant

/-! ### Islands of a canonical tree -/

section Canonical

variable {p : Manager} {tree : Tree} {es : List Entry} {built : List EmittedNode}

/-- Islands that are accepted give the leaf level of the replay loop, under every policy. The
islands cover the mutations in order, each once, and all of them have resynchronized inside their
guard. Unless a size bound can overflow a `u64`, the replay loop succeeds. -/
theorem tryIslands_canonical (h : Canonical p tree es built) (hdecoded : p.Decoded)
    (hcf : p.digests.CollisionFree (p.nodes ∪ {n | n ∈ built.map EmittedNode.node}))
    {depth : Nat} {olds : List NodeSummary} {cids : List Cid}
    (hcollect : collectLeafSummaries p depth tree = .ok (olds, cids)) {ms : List Edit}
    (hms : SortedEdits ms) {policy : ExecutionPolicy} {waves : Nat} {ss : List NodeSummary}
    {out : List EmittedNode} (hislands : tryIslands p policy waves olds ms = .ok (some (ss, out))) :
    (∀ fuel ss' out', replayLoop p olds fuel 0 ms = .ok (ss', out') → ss = ss') ∧
    (LevelEmitter.Fits p.format true ((patch es ms).map entryRow) → ∀ fuel, ms.length ≤ fuel →
      ∃ out', replayLoop p olds fuel 0 ms = .ok (ss, out')) ∧
    (planMutationIslands olds ms).flatMap MutationIsland.mutations = ms ∧
    ∃ replays, (planMutationIslands olds ms).mapM (replayMutationIsland p olds) = .ok replays ∧
      replays.all IslandReplay.provedIndependent = true := by
  obtain ⟨e0, kids, hnew, hrun, rfl, rfl⟩ := h.leafRun hdecoded hcf hcollect
  have hs := h.holds.sorted
  obtain ⟨hne, replays, hreplays, hproved, hmerge⟩ := tryIslands_eq_some hislands
  obtain ⟨hall, -⟩ := planMutationIslands_spec hne ms
  have hms' : SortedEdits ((planMutationIslands (kids.map Child.summary) ms).flatMap
      MutationIsland.mutations) := by rwa [hall]
  obtain ⟨-, nodes, hnodes, rfl⟩ := mergeIslandReplays_chunks hnew hrun hs hms'
    (planMutationIslands_ahead hrun.stored hs hne hms)
    (planMutationIslands_untouched hrun hs hne hms) hreplays hmerge
  rw [hall, drop_zero] at hnodes
  have hequal : ∀ fuel ss' out', replayLoop p (kids.map Child.summary) fuel 0 ms = .ok (ss', out') →
      nodes.map EmittedNode.summary = ss' := by
    intro fuel ss' out' hloop
    obtain ⟨nodes', hnodes', rfl⟩ := replayLoop_chunks hnew hrun hs hms hloop
    rw [drop_zero, hnodes] at hnodes'
    rw [Except.ok.inj hnodes']
  refine ⟨hequal, fun hfits fuel hfuel => ?_, hall, replays, hreplays, hproved⟩
  have hbuf := LevelEmitter.new_buffers hnew
  rw [← hbuf.format_eq, ← hbuf.leaf_eq] at hfits
  have hmax : e0.AdmitsAll e0 ((patch (Child.all (kids.drop 0)) ms).map entryRow) :=
    (LevelEmitter.new_isFresh hnew (Nat.zero_le _)).admitsAll hfits
  obtain ⟨⟨ss', out'⟩, hloop⟩ := replayLoop_ok hnew hrun hs hms hfuel hmax hnodes
  rw [← hequal fuel ss' out' hloop] at hloop
  exact ⟨out', hloop⟩

/-- The two islands of a tree with 52 leaves are what the replay loop makes of it. -/
theorem tryIslands_canonical_distant : ∃ olds cids ss out out',
    collectLeafSummaries Distant.manager 2 ⟨some (Distant.cid 53), Distant.format⟩ =
      .ok (olds, cids) ∧
    tryIslands Distant.manager Distant.policy 1 olds Distant.mutations = .ok (some (ss, out)) ∧
    replayLoop Distant.manager olds 2 0 Distant.mutations = .ok (ss, out') := by
  obtain ⟨hproper, hs, hbuilds, -, hms, hfits⟩ := Distant.evaluated
  obtain ⟨built, hcanonical, hcf⟩ := hproper.canonical hs hbuilds
  obtain ⟨olds, cids, ⟨ss, out⟩, hcollect, hislands⟩ := Distant.accepted
  obtain ⟨-, hreplays, -⟩ :=
    tryIslands_canonical hcanonical hproper.decoded hcf hcollect hms hislands
  obtain ⟨out', hloop⟩ := hreplays hfits 2 le_rfl
  exact ⟨olds, cids, ss, out, out', hcollect, hislands, hloop⟩

end Canonical

end Prolly
