import Prolly.Diff.Traversal
import Prolly.Write.Canonical

/-!
# Prolly.Replicas

Canonical trees have equal roots exactly if they hold one map (`canonical_root_iff`), and their
diff, replayed over the leaves of the one, gives the leaves of the other (`diff_replays`).
-/

namespace Prolly

open SortedAssoc
open LevelEmitter (Fits entryRow new_buffers new_isFresh)
open Reversed
open Manager (loadArc_eq_ok)
open List

variable {p q : Manager} {base other : Tree} {bs os : List Entry} {built built' : List EmittedNode}

/-- What two stores hold under one root, if they agree wherever both have a node. -/
theorem Holds.unique_of_agree {root : Option Cid} (hdigests : q.digests = p.digests)
    (hformat : q.format = p.format)
    (hagree : ∀ cid n m, p.loadArc cid = .ok n → q.loadArc cid = .ok m → n = m)
    (h : Holds p root bs) (h' : Holds q root os) : bs = os := by
  -- the store with the nodes of both holds both
  let r : Manager :=
    { p with store := fun cid => (p.loadArc cid).toOption.or (q.loadArc cid).toOption }
  have hp : ∀ cid n, p.loadArc cid = .ok n → r.loadArc cid = .ok n := fun cid n hn =>
    loadArc_eq_ok.mpr ⟨by simp [r, hn, Except.toOption], (loadArc_eq_ok.mp hn).2⟩
  refine (h.mono hp).unique (h'.mono fun cid m hm => ?_)
  obtain ⟨-, hcid, hfmt⟩ := loadArc_eq_ok.mp hm
  cases hn : p.loadArc cid with
  | ok n => exact hagree cid n m hn hm ▸ hp cid n hn
  | error _ =>
    exact loadArc_eq_ok.mpr ⟨by simp [r, hn, hm, Except.toOption], hdigests ▸ hcid, hformat ▸ hfmt⟩

/-- Two replicas with canonical trees have one root exactly if they hold one map. -/
theorem canonical_root_iff (h : Canonical p base bs built) (h' : Canonical q other os built')
    (hdigests : q.digests = p.digests) (hformat : q.format = p.format) (hdecoded : p.Decoded)
    (hdecoded' : q.Decoded) (hencoded : ∀ n ∈ p.nodes, ∃ bytes, n.tryToBytes = .ok bytes)
    (hcf : p.digests.CollisionFree (p.nodes ∪ q.nodes)) : base.root = other.root ↔ bs = os := by
  constructor
  · intro hroot
    refine Holds.unique_of_agree hdigests hformat (fun cid n m hn hm => ?_) h.holds
      (hroot ▸ h'.holds)
    obtain ⟨-, hcid, -⟩ := loadArc_eq_ok.mp hn
    obtain ⟨-, hcid', -⟩ := loadArc_eq_ok.mp hm
    have hp : n ∈ p.nodes := ⟨cid, hn⟩
    have hq : m ∈ q.nodes := ⟨cid, hm⟩
    rw [hdigests, ← hcid] at hcid'
    exact hcf.eq_of_cid (.inl hp) (.inr hq) (hdecoded n hp) (hdecoded' m hq) (hencoded n hp)
      hcid'.symm
  · rintro rfl
    have hbuilds := h'.builds
    rw [hdigests, hformat, h.builds] at hbuilds
    exact congrArg Prod.fst (Except.ok.inj hbuilds)

/-- The nodes of the tree over `a, b, c`. -/
def Reversed.part : Table := table.filter fun row =>
  row.2 ∈ [aCid, bCid, cCid, abCid, c1Cid, abcCid]

/-- A replica with the tree over `a, b, c` only, and one with the trees over `a, b, c` and over
`u, a, b, c`. -/
theorem canonical_root_iff_abc : (abc.root = abc.root ↔ [a, b, c] = [a, b, c]) ∧
    (abc.root = uabc.root ↔ [a, b, c] = [u, a, b, c]) := by
  have hpart : part.Proper digests format := by decide +kernel
  have hbuilds : part.builds digests format oneAtATime [a, b, c] abcCid = true := by decide +kernel
  obtain ⟨_, hbase, -⟩ := hpart.canonical sorted_uabc.tail hbuilds
  obtain ⟨_, habc, -⟩ := proper.canonical sorted_uabc.tail builds_abc
  obtain ⟨_, huabc, -⟩ := proper.canonical sorted_uabc builds_uabc
  have hencoded : ∀ n ∈ (part.manager digests format).nodes, ∃ bytes, n.tryToBytes = .ok bytes := by
    intro n ⟨cid, hload⟩
    have hformat : n.format = format := (loadArc_eq_ok.mp hload).2.2
    exact Node.tryToBytes_ok (by rw [hformat]; decide) (by rw [hformat]; trivial)
  have hsub : ∀ n ∈ part.map Prod.fst, n ∈ table.map Prod.fst := fun n hn =>
    map_subset _ (filter_subset_self table) hn
  have hcf : digests.CollisionFree ((part.manager digests format).nodes ∪ manager.nodes) := by
    refine (proper.collisionFree hsub).mono ?_
    intro n hn
    rcases hn with ⟨cid, hload⟩ | hn
    · exact .inr (Table.Proper.mem_of_loadArc hload)
    · exact .inl hn
  exact ⟨canonical_root_iff hbase habc rfl rfl hpart.decoded proper.decoded hencoded hcf,
    canonical_root_iff hbase huabc rfl rfl hpart.decoded proper.decoded hencoded hcf⟩

/-- Replaying the diff of two canonical trees over the leaves of the first gives the leaves of the
second. -/
theorem diff_replays (hbase : Canonical p base bs built) (hother : Canonical p other os built')
    (hdecoded : p.Decoded)
    (hcf : p.digests.CollisionFree (p.nodes ∪ {n | n ∈ built.map EmittedNode.node}))
    (hcf' : p.digests.CollisionFree (p.nodes ∪ {n | n ∈ built'.map EmittedNode.node}))
    (hfits : Fits p.format true (os.map entryRow))
    {depth : Nat} {olds news : List NodeSummary} {cids cids' : List Cid}
    (holds : collectLeafSummaries p depth base = .ok (olds, cids))
    (hnews : collectLeafSummaries p depth other = .ok (news, cids')) :
    Enough fun fuel => ∃ ds out, p.computeDiff fuel base other = .ok ds ∧
      replayLoop p olds fuel 0 (ds.map Diff.edit) = .ok (news, out) := by
  obtain ⟨e0, kids, hnew, hrun, rfl, rfl⟩ := hbase.leafRun hdecoded hcf holds
  obtain ⟨leaves, hleaves, -, rfl⟩ := hother.leaves hdecoded hcf' hnews
  have hs := hbase.holds.sorted
  have hms := diff_sortedEdits hs hother.holds.sorted
  have hpatch : patch (Child.all (kids.drop 0)) ((diff (Child.all kids) os).map Diff.edit) = os :=
    patch_diff hs hother.holds.sorted
  have hexact := leafChunks_exact hnew hleaves
  have hmax : e0.AdmitsAll e0 (os.map entryRow) := by
    rw [← (new_buffers hnew).format_eq, ← (new_buffers hnew).leaf_eq] at hfits
    exact (new_isFresh hnew (Nat.zero_le _)).admitsAll hfits
  obtain ⟨N, hdiff⟩ := computeDiff_eq hbase.holds hother.holds
  refine ⟨max N (diff (Child.all kids) os).length, fun fuel hfuel => ?_⟩
  have hlen := (length_map Diff.edit).trans_le (le_of_max_le_right hfuel)
  obtain ⟨⟨ss, out⟩, hloop⟩ := replayLoop_ok hnew hrun hs hms hlen (by rwa [hpatch])
    (by rwa [hpatch])
  obtain ⟨nodes, hnodes, rfl⟩ := replayLoop_chunks hnew hrun hs hms hloop
  rw [hpatch, hexact] at hnodes
  cases hnodes
  exact ⟨_, out, hdiff fuel (le_of_max_le_left hfuel), hloop⟩

/-- From `{u, a, b, c}` to `{a, b, c}`: the leaves of the other entries are reused. -/
theorem diff_replays_uabc : ∃ olds news cids cids',
    collectLeafSummaries manager 3 uabc = .ok (olds, cids) ∧
    collectLeafSummaries manager 3 abc = .ok (news, cids') ∧
    Enough fun fuel => ∃ ds out, manager.computeDiff fuel uabc abc = .ok ds ∧
      replayLoop manager olds fuel 0 (ds.map Diff.edit) = .ok (news, out) := by
  obtain ⟨_, hbase, hcf⟩ := proper.canonical sorted_uabc builds_uabc
  obtain ⟨_, hother, hcf'⟩ := proper.canonical sorted_uabc.tail builds_abc
  obtain ⟨⟨olds, cids⟩, holds⟩ := Result.exists_of_isOk (show
    (collectLeafSummaries manager 3 uabc).isOk = true by decide +kernel)
  obtain ⟨⟨news, cids'⟩, hnews⟩ := Result.exists_of_isOk (show
    (collectLeafSummaries manager 3 abc).isOk = true by decide +kernel)
  have hfits : Fits format true ([a, b, c].map entryRow) := by unfold Fits; decide +kernel
  exact ⟨olds, news, cids, cids', holds, hnews,
    diff_replays hbase hother proper.decoded hcf hcf' hfits holds hnews⟩

end Prolly
