import Prolly.Write.Basic

/-!
# Prolly.Write.Replay

The general path of the writer (`apply_impl`): list the leaves of the old tree,
stream the touched ones through a fresh leaf emitter with the mutations merged in,
and stop as soon as the emitter is aligned with an old leaf again. The same replay
is run on several distant regions at once where the mutations fall into islands.

Either way the result is a list of leaf summaries, some old and some new. An emitter
is always flushed before its leaves are used, so where a replay stops is a question of
cost and canonical form only.
-/

namespace Prolly

open SortedAssoc
open List

/-! ### Replaying old leaves -/

/-- What one old leaf contributes: its entries with the mutations in front of the next
leaf merged in, and the mutations left. -/
def replayEntries (leaf : List Entry) (nextFirst : Option Bytes) (ms : List Edit) :
    List Entry × List Edit :=
  let (entries, rest) := absorbAll leaf ms
  match nextFirst with
  | none => (entries ++ rest.flatMap kept, [])
  | some next =>
    (entries ++ (rest.takeWhile (·.1 < next)).flatMap kept, rest.dropWhile (·.1 < next))

/-- Where a replay stands: the emitter, the mutations and old leaves still ahead, and
whether it stopped aligned with the last leaf it read. -/
structure Replay where
  emitter : LeafEmitter
  pending : List Edit
  after : List NodeSummary
  resynced : Bool

/-- The loop over at most `count` old leaves. It stops where `consumed` accepts the
mutations left and the emitter is aligned. -/
def replayLeaves (p : Manager) (consumed : List Edit → Bool) :
    Nat → List NodeSummary → LeafEmitter → List Edit → Result Replay
  | 0, olds, e, ms => .ok ⟨e, ms, olds, false⟩
  | _ + 1, [], e, ms => .ok ⟨e, ms, [], false⟩
  | count + 1, old :: olds, e, ms => do
      let leaf ← p.loadArc old.cid
      if ¬ leaf.leaf ∨ leaf.keys.length ≠ leaf.vals.length then .error .invalidNode
      else
        let (entries, rest) := replayEntries leaf.entries (olds.head?.map NodeSummary.firstKey) ms
        let e ← e.push p.digests entries
        if consumed rest && e.isAlignedWith old then return ⟨e, rest, olds, true⟩
        else replayLeaves p consumed count olds e rest

/-- A replay that did not stop early pushes the mutations left; then it flushes. -/
def Replay.finish (d : Digests) (r : Replay) : Result LeafEmitter := do
  let e ← r.emitter.push d (if r.resynced then [] else r.pending.flatMap kept)
  e.flush d

/-- The main loop, from the old leaf `cursor` on: the summaries of the new leaf level and
the leaves emitted. Each replay starts two leaves ahead of the next mutation, since a
hard-cap split can move into the preceding leaf. -/
def replayLoop (p : Manager) (olds : List NodeSummary) :
    Nat → Nat → List Edit → Result (List NodeSummary × List EmittedNode)
  | _, cursor, [] => .ok (olds.drop cursor, [])
  | 0, _, _ :: _ => .error .outOfFuel
  | fuel + 1, cursor, m :: ms => do
      let start := max (partitionPoint (fun leaf => decide (leaf.firstKey ≤ m.1)) olds - 2) cursor
      let e ← LeafEmitter.new p.format
      let r ← replayLeaves p (fun rest => decide (rest.length < (m :: ms).length)) olds.length
        (olds.drop start) e (m :: ms)
      let e ← r.finish p.digests
      let reused := (olds.drop cursor).take (start - cursor)
      if r.resynced then
        let (summaries, out) ← replayLoop p olds fuel (olds.length - r.after.length) r.pending
        return (reused ++ e.summaries ++ summaries, e.emitted ++ out)
      else return (reused ++ e.summaries, e.emitted)

/-! ### Islands of mutations -/

/-- `ExecutionPolicy`: how independent work is scheduled. -/
structure ExecutionPolicy where
  width : Nat
  readWidth : Nat
  waveSize : Nat
  enabled : Bool

/-- `ExecutionPolicy::limit_to`. -/
def ExecutionPolicy.limitTo (policy : ExecutionPolicy) (work : Nat) : ExecutionPolicy :=
  let width := min policy.width (max work 1)
  let enabled := policy.enabled && decide (1 < width) && decide (1 < work)
  let width := if enabled then width else 1
  { width
    readWidth := if enabled then min policy.readWidth (max work 1) else 1
    waveSize := max (width * 4) 1
    enabled }

/-- `MUTATION_ISLAND_GUARD_LEAVES`. -/
def guardLeaves : Nat := 8

/-- `MutationIslandCandidate`, with the mutations of its range. -/
structure MutationIslandCandidate where
  firstLeaf : Nat
  lastLeaf : Nat
  mutations : List Edit

/-- `MutationIsland`, with the mutations of its range. -/
structure MutationIsland where
  leafStart : Nat
  leafEnd : Nat
  mutations : List Edit
  protectedEnd : Nat

variable (olds : List NodeSummary) (ms : List Edit)

/-- The old leaf a key belongs to. -/
def targetLeaf (key : Bytes) : Nat :=
  partitionPoint (fun leaf => decide (leaf.firstKey ≤ key)) olds - 1

/-- One step of `mutation_island_candidates`: a mutation in the leaf of the last candidate
or the next one joins it. -/
def pushCandidate (candidates : List MutationIslandCandidate) (m : Edit) :
    List MutationIslandCandidate :=
  let leaf := targetLeaf olds m.1
  match candidates.getLast? with
  | some last =>
    if leaf ≤ last.lastLeaf + 1 then
      candidates.dropLast ++
        [{ last with lastLeaf := max last.lastLeaf leaf, mutations := last.mutations ++ [m] }]
    else candidates ++ [⟨leaf, leaf, [m]⟩]
  | none => candidates ++ [⟨leaf, leaf, [m]⟩]

/-- `mutation_island_candidates`. -/
def mutationIslandCandidates : List MutationIslandCandidate :=
  ms.foldl (pushCandidate olds) []

/-- The island of a candidate, with two leaves of context and the guard behind it. -/
def MutationIslandCandidate.island (leafCount : Nat) (c : MutationIslandCandidate) :
    MutationIsland :=
  let leafEnd := min (c.lastLeaf + 1) leafCount
  { leafStart := c.firstLeaf - 2
    leafEnd
    mutations := c.mutations
    protectedEnd := min (leafEnd + guardLeaves) leafCount }

/-- One step of `plan_mutation_islands`: an island inside the guard of the last one joins
it. -/
def pushIsland (islands : List MutationIsland) (island : MutationIsland) : List MutationIsland :=
  match islands.getLast? with
  | some last =>
    if island.leafStart < last.protectedEnd then
      islands.dropLast ++
        [{ last with
           leafEnd := island.leafEnd
           mutations := last.mutations ++ island.mutations
           protectedEnd := max last.protectedEnd island.protectedEnd }]
    else islands ++ [island]
  | none => islands ++ [island]

/-- `plan_mutation_islands`. -/
def planMutationIslands : List MutationIsland :=
  if olds = [] ∨ ms = [] then []
  else
    ((mutationIslandCandidates olds ms).map (·.island olds.length)).foldl pushIsland []

/-- `IslandReplay`: the leaves `start..stop` were replaced by `emitted`. -/
structure IslandReplay where
  start : Nat
  stop : Nat
  protectedEnd : Nat
  emitted : List EmittedNode
  resynced : Bool

/-- `proved_independent`. -/
def IslandReplay.provedIndependent (r : IslandReplay) : Bool :=
  r.resynced && decide (r.stop ≤ r.protectedEnd)

/-- `replay_mutation_island`. -/
def replayMutationIsland (p : Manager) (olds : List NodeSummary) (island : MutationIsland) :
    Result IslandReplay :=
  if island.leafEnd ≤ island.leafStart ∨ island.protectedEnd < island.leafEnd ∨
      olds.length < island.protectedEnd ∨ island.mutations = [] then .error .invalidNode
  else do
    let e ← LeafEmitter.new p.format
    let r ← replayLeaves p isEmpty (island.protectedEnd - island.leafStart)
      (olds.drop island.leafStart) e island.mutations
    let e ← r.emitter.flush p.digests
    return { start := island.leafStart
             stop := olds.length - r.after.length
             protectedEnd := island.protectedEnd
             emitted := e.emitted
             resynced := r.resynced }

/-- `execute_mutation_islands`: wave by wave, until a wave has an island that is not proved
independent. -/
def executeMutationIslands (replay : MutationIsland → Result IslandReplay) (waveSize : Nat) :
    Nat → List MutationIsland → Result (List IslandReplay)
  | _, [] => .ok []
  | 0, _ :: _ => .error .outOfFuel
  | fuel + 1, island :: islands => do
      let wave ← ((island :: islands).take waveSize).mapM replay
      if wave.all IslandReplay.provedIndependent then
        let rest ← executeMutationIslands replay waveSize fuel ((island :: islands).drop waveSize)
        return wave ++ rest
      else return wave

/-- `merge_proved_island_replays`, from the old leaf `cursor` on. -/
def mergeIslandReplays (olds : List NodeSummary) :
    Nat → List IslandReplay → Result (List NodeSummary × List EmittedNode)
  | cursor, [] => .ok (olds.drop cursor, [])
  | cursor, r :: rs =>
    if ¬ r.provedIndependent ∨ r.start < cursor ∨ olds.length < r.stop then .error .invalidNode
    else do
      let (summaries, out) ← mergeIslandReplays olds r.stop rs
      return ((olds.drop cursor).take (r.start - cursor) ++
        r.emitted.map EmittedNode.summary ++ summaries, r.emitted ++ out)

/-- `structural_mutations_can_form_distant_islands`. -/
def canFormDistantIslands : Bool :=
  match ms.head?, ms.getLast? with
  | some first, some last =>
    let leafSpan := targetLeaf olds last.1 - targetLeaf olds first.1 + 1
    decide (1 < leafSpan) && decide (ms.length * (guardLeaves + 3) < leafSpan)
  | _, _ => false

/-- `structural_islands_worth_speculating`. -/
def worthSpeculating (candidateCount : Nat) (islands : List MutationIsland) (leafCount : Nat)
    (policy : ExecutionPolicy) : Bool :=
  decide (2 ≤ islands.length) && decide (leafCount ≠ 0) && policy.enabled &&
    decide (candidateCount ≤ islands.length * 4) &&
    decide ((islands.map fun island => island.protectedEnd - island.leafStart).sum * 4 ≤ leafCount)

/-- `try_parallel_structural_islands`. -/
def tryIslands (p : Manager) (policy : ExecutionPolicy) (fuel : Nat) (olds : List NodeSummary)
    (ms : List Edit) : Result (Option (List NodeSummary × List EmittedNode)) :=
  if ¬ policy.enabled ∨ ¬ canFormDistantIslands olds ms then .ok none
  else
    let islands := planMutationIslands olds ms
    let policy := policy.limitTo islands.length
    if ¬ policy.enabled ∨
        ¬ worthSpeculating (mutationIslandCandidates olds ms).length islands olds.length policy then
      .ok none
    else do
      let replays ← executeMutationIslands (replayMutationIsland p olds) policy.waveSize
        fuel islands
      if replays.all IslandReplay.provedIndependent then
        let merged ← mergeIslandReplays olds 0 replays
        return some merged
      else return none

/-! ### What a replay emits -/

/-- One leaf is patched with the mutations in front of the next leaf. -/
theorem replayEntries_spec {leaf : List Entry} {nextFirst : Option Bytes} {ms : List Edit}
    (hms : SortedEdits ms) (hnext : ∀ next, nextFirst = some next → ∀ x ∈ leaf, x.1 < next) :
    ∃ ms1 ms2, ms = ms1 ++ ms2 ∧ replayEntries leaf nextFirst ms = (patch leaf ms1, ms2) ∧
      (∀ next, nextFirst = some next → ∀ m ∈ ms1, m.1 < next) ∧
      ∀ m ∈ ms2, ∃ next, nextFirst = some next ∧ next ≤ m.1 := by
  cases nextFirst with
  | none => exact ⟨ms, [], by simp, by simp [replayEntries, absorbAll_patch], by simp, by simp⟩
  | some next =>
    have hcut : ms = ms.takeWhile (·.1 < next) ++ ms.dropWhile (·.1 < next) :=
      takeWhile_append_dropWhile.symm
    have hbefore : ∀ m ∈ ms.takeWhile (·.1 < next), m.1 < next := fun m hm => by
      simpa using mem_takeWhile_imp hm
    have hafter : ∀ m ∈ ms.dropWhile (·.1 < next), next ≤ m.1 := by
      intro m hm
      cases hdrop : ms.dropWhile (·.1 < next) with
      | nil => simp [hdrop] at hm
      | cons x rest =>
        have hx : next ≤ x.1 := by
          have := head_dropWhile_not (p := fun m : Edit => decide (m.1 < next)) (l := ms)
            (by simp [hdrop])
          simpa [hdrop] using this
        have hsorted : SortedEdits (x :: rest) := hdrop ▸ hms.sublist (dropWhile_suffix _).sublist
        rw [hdrop] at hm
        rcases mem_cons.mp hm with rfl | hm
        · exact hx
        · exact hx.trans ((pairwise_cons.mp hsorted).1 m hm).le
    generalize ms.takeWhile (·.1 < next) = ms1 at hcut hbefore
    generalize ms.dropWhile (·.1 < next) = ms2 at hcut hafter
    subst hcut
    refine ⟨ms1, ms2, rfl, ?_, by simpa using hbefore, by simpa using hafter⟩
    have habsorb : absorbAll leaf (ms1 ++ ms2) =
        ((absorbAll leaf ms1).1, (absorbAll leaf ms1).2 ++ ms2) :=
      absorbAll_append fun x hx m hm => (hnext next rfl x hx).trans_le (hafter m hm)
    have hrest : ∀ m ∈ (absorbAll leaf ms1).2, decide (m.1 < next) = true := fun m hm => by
      simpa using hbefore m ((absorbAll_suffix leaf ms1).subset hm)
    have htake : ms2.takeWhile (·.1 < next) = [] ∧ ms2.dropWhile (·.1 < next) = ms2 := by
      cases ms2 with
      | nil => simp
      | cons m ms2 =>
        have hm : ¬ m.1 < next := not_lt.mpr (hafter m mem_cons_self)
        simp [hm]
    simp only [replayEntries, habsorb]
    rw [takeWhile_append_of_pos hrest, dropWhile_append_of_pos hrest, htake.1, htake.2,
      append_nil, absorbAll_patch]

section Replay

variable {p q : Manager} {es : List Entry} {olds : List NodeSummary} {ms : List Edit}
  {consumed : List Edit → Bool} {count : Nat} {e : LeafEmitter} {r : Replay}

/-- What a loop over old leaves has done: it patched the entries of the leaves it read with
the mutations up to the leaves ahead, and `fed` tells what the emitter made of them. -/
def Replay.PatchesBy (fed : LeafEmitter → List Entry → Prop) (q : Manager) (r : Replay)
    (done es : List Entry) (ms : List Edit) : Prop :=
  ∃ es1 es2 ms1, es = es1 ++ es2 ∧ ms = ms1 ++ r.pending ∧ Forest q 0 r.after es2 ∧
    fed r.emitter (done ++ patch es1 ms1) ∧ (∀ m ∈ ms1, ∀ x ∈ es2, m.1 < x.1) ∧
    ∀ x ∈ es1, ∀ m ∈ r.pending, x.1 < m.1

/-- The mutations that a leaf takes lie before the leaves ahead, and the others behind the
leaf. -/
theorem replayEntries_separated {l : List Entry} (hrest : Forest q 0 olds es)
    (hs : Sorted (l ++ es)) (hms : SortedEdits ms) :
    ∃ ms1 ms2, ms = ms1 ++ ms2 ∧
      replayEntries l (olds.head?.map NodeSummary.firstKey) ms = (patch l ms1, ms2) ∧
      (∀ m ∈ ms1, ∀ x ∈ es, m.1 < x.1) ∧ ∀ x ∈ l, ∀ m ∈ ms2, x.1 < m.1 := by
  obtain ⟨hnext, hnone⟩ := hrest.nextFirst hs
  obtain ⟨ms1, ms2, rfl, hentries, hbefore, hafter⟩ :=
    replayEntries_spec hms fun next hnf => (hnext next hnf).1
  refine ⟨ms1, ms2, rfl, hentries, ?_, ?_⟩
  · intro m hm x hx
    cases hnf : olds.head?.map NodeSummary.firstKey with
    | none => simp [hnone hnf] at hx
    | some next => exact (hbefore next hnf m hm).trans_le ((hnext next hnf).2 x hx)
  · intro x hx m hm
    obtain ⟨next, hnf, hle⟩ := hafter m hm
    exact ((hnext next hnf).1 x hx).trans_le hle

/-- The leaves ahead are the last of the old ones. -/
theorem replayLeaves_suffix (h : replayLeaves p consumed count olds e ms = .ok r) :
    r.after <:+ olds := by
  induction count generalizing olds e ms with
  | zero =>
    cases h
    exact suffix_rfl
  | succ count ih =>
    cases olds with
    | nil =>
      cases h
      exact suffix_rfl
    | cons old olds =>
      obtain ⟨leaf, -, h⟩ := of_bind h
      split at h
      · cases h
      generalize replayEntries leaf.entries _ ms = out at h
      obtain ⟨e', -, h⟩ := of_bind h
      split at h
      · cases h
        exact suffix_cons _ _
      · exact (ih h).trans (suffix_cons _ _)

theorem replayLeaves_by {fed : LeafEmitter → List Entry → Prop}
    (hfed : ∀ {e e' : LeafEmitter} {done new : List Entry}, fed e done →
      e.push p.digests new = .ok e' → fed e' (done ++ new)) {done : List Entry}
    (holds : Forest p 0 olds es) (hs : Sorted es) (hms : SortedEdits ms) (he : fed e done)
    (h : replayLeaves p consumed count olds e ms = .ok r) :
    r.PatchesBy fed p done es ms ∧
      (r.resynced = true → consumed r.pending = true ∧ r.emitter.emitter.isEmpty = true) ∧
      (r.resynced = false → olds.length ≤ count → r.after = []) := by
  -- a loop that stops at once has read nothing
  have hstop : ∀ {e : LeafEmitter} {olds : List NodeSummary} {es : List Entry} {ms : List Edit}
      {done : List Entry}, Forest p 0 olds es → fed e done →
      Replay.PatchesBy fed p ⟨e, ms, olds, false⟩ done es ms := by
    intro e olds es ms done holds he
    exact ⟨[], es, [], rfl, rfl, holds, by simpa using he, by simp, by simp⟩
  induction count generalizing olds e ms done es with
  | zero =>
    cases h
    exact ⟨hstop holds he, by simp, by simp⟩
  | succ count ih =>
    cases olds with
    | nil =>
      cases h
      exact ⟨hstop holds he, by simp, by simp⟩
    | cons old olds =>
      obtain ⟨leaf, hload, h⟩ := of_bind h
      split at h
      · cases h
      obtain ⟨l, es', rfl, hold, hrest⟩ := holds.cons
      obtain ⟨⟨n, hn, hleaf⟩, -, -⟩ := hold.singleton
      obtain rfl : leaf = n := Except.ok.inj (hload.symm.trans hn)
      obtain ⟨ms1, ms2, rfl, hentries, hlt1, hlt2⟩ := replayEntries_separated hrest hs hms
      rw [hleaf.entries_eq, hentries] at h
      obtain ⟨e', hpush, h⟩ := of_bind h
      have he' := hfed he hpush
      split at h
      · next hcond =>
        cases h
        simp only [LeafEmitter.isAlignedWith, Bool.and_eq_true] at hcond
        exact ⟨⟨l, es', ms1, rfl, rfl, hrest, he', hlt1, hlt2⟩, fun _ => ⟨hcond.1, hcond.2.1⟩,
          by simp⟩
      · obtain ⟨-, hs', hll⟩ := sorted_append.mp hs
        obtain ⟨-, hms2, hmm⟩ := pairwise_append.mp hms
        obtain ⟨⟨es1, es2, ms3, rfl, rfl, hfor, hfed', hm3, hx1⟩, hcons, hall⟩ :=
          ih hrest hs' hms2 he' h
        refine ⟨⟨l ++ es1, es2, ms1 ++ ms3, by simp, by simp, hfor, ?_, ?_, ?_⟩,
          hcons, fun hr hlen => hall hr (by simpa using hlen)⟩
        · rw [patch_append (fun x hx m hm => hlt2 x hx m (mem_append_left _ hm))
            fun m hm x hx => hlt1 m hm x (mem_append_left _ hx), ← append_assoc]
          exact hfed'
        · intro m hm x hx
          rcases mem_append.mp hm with hm | hm
          · exact hlt1 m hm x (mem_append_right _ hx)
          · exact hm3 m hm x hx
        · intro x hx m hm
          rcases mem_append.mp hx with hx | hx
          · exact hlt2 x hx m (mem_append_right _ hm)
          · exact hx1 x hx m hm

end Replay

/-! ### Islands -/

section Islands

variable {p q : Manager} {olds : List NodeSummary} {fuel : Nat} {kids : List Child} {ms : List Edit}

/-- The mutations begin at the old leaf `start` or behind it. -/
def Anchored (olds : List NodeSummary) (start : Nat) (ms : List Edit) : Prop :=
  ∃ m rest, ms = m :: rest ∧ start ≤ targetLeaf olds m.1

theorem Anchored.append {start : Nat} {ms : List Edit} (h : Anchored olds start ms)
    (ms' : List Edit) : Anchored olds start (ms ++ ms') := by
  obtain ⟨m, rest, rfl, hstart⟩ := h
  exact ⟨m, rest ++ ms', rfl, hstart⟩

theorem mutationIslandCandidates_spec (olds : List NodeSummary) (ms : List Edit) :
    (mutationIslandCandidates olds ms).flatMap MutationIslandCandidate.mutations = ms ∧
      ∀ c ∈ mutationIslandCandidates olds ms, Anchored olds c.firstLeaf c.mutations := by
  induction ms using reverseRecOn with
  | nil => exact ⟨rfl, by simp [mutationIslandCandidates]⟩
  | append_singleton ms m ih =>
    obtain ⟨hall, hanchored⟩ := ih
    rw [mutationIslandCandidates, foldl_append, foldl_cons, foldl_nil, ← mutationIslandCandidates]
    generalize mutationIslandCandidates olds ms = candidates at hall hanchored
    have hfresh : Anchored olds (targetLeaf olds m.1) [m] := ⟨m, [], rfl, le_rfl⟩
    have happend : ∀ fresh : MutationIslandCandidate,
      Anchored olds fresh.firstLeaf fresh.mutations → fresh.mutations = [m] →
        (candidates ++ [fresh]).flatMap MutationIslandCandidate.mutations = ms ++ [m] ∧
          ∀ c ∈ candidates ++ [fresh], Anchored olds c.firstLeaf c.mutations := by
      intro fresh hfresh hm
      refine ⟨by simp [hall, hm], fun c hc => ?_⟩
      rcases mem_append.mp hc with hc | hc
      · exact hanchored c hc
      · rw [mem_singleton.mp hc]
        exact hfresh
    rw [pushCandidate]
    split
    · next last hlast =>
        obtain ⟨init, rfl⟩ := getLast?_eq_some_iff.mp hlast
        split
        · rw [dropLast_concat]
          refine ⟨by simpa [← append_assoc] using hall, fun c hc => ?_⟩
          rcases mem_append.mp hc with hc | hc
          · exact hanchored c (mem_append_left _ hc)
          · rw [mem_singleton.mp hc]
            exact (hanchored last (by simp)).append [m]
        · exact happend _ hfresh rfl
    · exact happend _ hfresh rfl

/-- Joining islands keeps the mutations, and whatever holds of the first leaf of an island and the
mutations it begins with. -/
theorem foldl_pushIsland_spec (begins : Nat → List Edit → Prop)
    (happend : ∀ {start ms} (ms' : List Edit), begins start ms → begins start (ms ++ ms'))
    (islands done : List MutationIsland) (hdone : ∀ i ∈ done, begins i.leafStart i.mutations)
    (h : ∀ i ∈ islands, begins i.leafStart i.mutations) :
    (islands.foldl pushIsland done).flatMap MutationIsland.mutations =
        done.flatMap MutationIsland.mutations ++ islands.flatMap MutationIsland.mutations ∧
      ∀ i ∈ islands.foldl pushIsland done, begins i.leafStart i.mutations := by
  induction islands generalizing done with
  | nil => exact ⟨by simp, hdone⟩
  | cons island islands ih =>
    have hstep : (pushIsland done island).flatMap MutationIsland.mutations =
          done.flatMap MutationIsland.mutations ++ island.mutations ∧
        ∀ i ∈ pushIsland done island, begins i.leafStart i.mutations := by
      have hfresh := h island mem_cons_self
      have hconcat : ∀ i ∈ done ++ [island], begins i.leafStart i.mutations := by
        intro i hi
        rcases mem_append.mp hi with hi | hi
        · exact hdone i hi
        · rwa [mem_singleton.mp hi]
      rw [pushIsland]
      split
      · next last hlast =>
          obtain ⟨init, rfl⟩ := getLast?_eq_some_iff.mp hlast
          split
          · rw [dropLast_concat]
            refine ⟨by simp, fun i hi => ?_⟩
            rcases mem_append.mp hi with hi | hi
            · exact hdone i (mem_append_left _ hi)
            · rw [mem_singleton.mp hi]
              exact happend island.mutations (hdone last (by simp))
          · exact ⟨by simp, hconcat⟩
      · exact ⟨by simp, hconcat⟩
    obtain ⟨hall, hbegins⟩ := ih (pushIsland done island) hstep.2
      fun i hi => h i (.tail _ hi)
    rw [foldl_cons]
    refine ⟨?_, hbegins⟩
    rw [hall, hstep.1, flatMap_cons, append_assoc]

/-- The islands cover the mutations in order. Each begins at or before the leaf of its first
mutation, and before it unless it begins with the first leaf. -/
theorem planMutationIslands_spec (hne : olds ≠ []) (ms : List Edit) :
    (planMutationIslands olds ms).flatMap MutationIsland.mutations = ms ∧
      ∀ i ∈ planMutationIslands olds ms, Anchored olds i.leafStart i.mutations ∧
        (0 < i.leafStart → Anchored olds (i.leafStart + 1) i.mutations) := by
  obtain ⟨hall, hanchored⟩ := mutationIslandCandidates_spec olds ms
  rw [planMutationIslands]
  split
  · next h =>
      obtain rfl := h.resolve_left hne
      exact ⟨rfl, by simp⟩
  · obtain ⟨hall', hbegins⟩ := foldl_pushIsland_spec
      (fun start ms => Anchored olds start ms ∧ (0 < start → Anchored olds (start + 1) ms))
      (fun ms' h => ⟨h.1.append ms', fun hstart => (h.2 hstart).append ms'⟩)
      ((mutationIslandCandidates olds ms).map (·.island olds.length)) [] (by simp) (by
        intro i hi
        obtain ⟨c, hc, rfl⟩ := mem_map.mp hi
        obtain ⟨m, rest, hms, hle⟩ := hanchored c hc
        simp only [MutationIslandCandidate.island]
        exact ⟨⟨m, rest, hms, by omega⟩, fun _ => ⟨m, rest, hms, by omega⟩⟩)
    refine ⟨?_, hbegins⟩
    rw [hall', flatMap_nil, nil_append, flatMap_map]
    exact hall

/-- A batch of islands that are all proved independent has been replayed island by island. -/
theorem executeMutationIslands_spec {replay : MutationIsland → Result IslandReplay} {waveSize : Nat}
    {islands : List MutationIsland} {replays : List IslandReplay}
    (h : executeMutationIslands replay waveSize fuel islands = .ok replays)
    (hproved : replays.all IslandReplay.provedIndependent = true) :
    islands.mapM replay = .ok replays := by
  induction fuel generalizing islands replays with
  | zero =>
    cases islands with
    | nil =>
      cases h
      rfl
    | cons island islands => cases h
  | succ fuel ih =>
    cases islands with
    | nil =>
      cases h
      rfl
    | cons island islands =>
      rw [executeMutationIslands] at h
      obtain ⟨wave, hwave, h⟩ := of_bind h
      split at h
      · obtain ⟨rest, hrest, h⟩ := of_bind h
        cases h
        rw [all_append, Bool.and_eq_true] at hproved
        rw [← take_append_drop waveSize (island :: islands), mapM_append, hwave,
          ok_bind, ih hrest hproved.2]
        rfl
      · next hnot =>
          cases h
          exact absurd hproved hnot

/-- What lies before the first leaf of an island lies before its mutations. -/
theorem Anchored.ahead (hkids : ∀ c ∈ kids, Subtree q 0 c.cid c.entries)
    (hs : Sorted (Child.all kids)) {start : Nat} (hms : SortedEdits ms)
    (h : Anchored (kids.map Child.summary) start ms) :
    ∀ m ∈ ms, ∀ x ∈ Child.all (kids.take start), x.1 < m.1 := by
  obtain ⟨first, rest, rfl, hle⟩ := h
  intro m hm x hx
  have hfirst : first.1 ≤ m.1 := by
    rcases mem_cons.mp hm with rfl | hm
    · exact le_rfl
    · exact ((pairwise_cons.mp hms).1 m hm).le
  refine lt_of_lt_of_le ?_ hfirst
  have hanchor : (kids.map Child.summary).take start = [] ∨
      ∃ next, ((kids.map Child.summary).drop start).head? = some next ∧
          next.firstKey ≤ first.1 := by
    by_cases hzero : start = 0
    · exact .inl (by rw [hzero, take_zero])
    · have hlt : start < partitionPoint (fun leaf : NodeSummary => decide (leaf.firstKey ≤ first.1))
          (kids.map Child.summary) := by
        rw [targetLeaf] at hle
        omega
      obtain ⟨next, hnext, hkey⟩ := of_lt_partitionPoint hlt
      exact .inr ⟨next, hnext, by simpa using hkey⟩
  have hall : Forest q 0
    ((kids.map Child.summary).take start ++ (kids.map Child.summary).drop start)
      (Child.all kids) := by
    rw [take_append_drop]
    exact ⟨kids, rfl, hkids, rfl⟩
  obtain ⟨es1, es2, -, h1, -, hlt⟩ := hall.before hs hanchor
  have htake : Forest q 0 ((kids.map Child.summary).take start) (Child.all (kids.take start)) :=
    ⟨_, by rw [map_take], fun c hc => hkids c (mem_of_mem_take hc), rfl⟩
  rw [(htake.eq_of_cids h1 rfl).1] at hx
  exact hlt x hx

/-- A replay of islands joins what every planned island was replayed to, whatever the policy. -/
theorem tryIslands_eq_some {policy : ExecutionPolicy} {merged : List NodeSummary × List EmittedNode}
    (h : tryIslands p policy fuel olds ms = .ok (some merged)) :
    olds ≠ [] ∧ ∃ replays,
      (planMutationIslands olds ms).mapM (replayMutationIsland p olds) = .ok replays ∧
        replays.all IslandReplay.provedIndependent = true ∧
        mergeIslandReplays olds 0 replays = .ok merged := by
  rw [tryIslands] at h
  split at h
  · cases h
  dsimp only at h
  split at h
  · cases h
  next hworth =>
  have hne : olds ≠ [] := by
    rintro rfl
    exact hworth (.inr (by simp [worthSpeculating]))
  obtain ⟨replays, hexec, h⟩ := of_bind h
  split at h
  · next hproved =>
      obtain ⟨merged', hmerge, h⟩ := of_bind h
      cases h
      exact ⟨hne, replays, executeMutationIslands_spec hexec hproved, hproved, hmerge⟩
  · cases h

/-- What lies before a planned island lies before its mutations. -/
theorem planMutationIslands_ahead (hkids : ∀ c ∈ kids, Subtree q 0 c.cid c.entries)
    (hs : Sorted (Child.all kids)) (hne : kids.map Child.summary ≠ []) (hms : SortedEdits ms) :
    ∀ i ∈ planMutationIslands (kids.map Child.summary) ms, ∀ m ∈ i.mutations,
      ∀ x ∈ Child.all (kids.take i.leafStart), x.1 < m.1 := by
  intro i hi
  obtain ⟨hall, hanchored⟩ := planMutationIslands_spec hne ms
  rw [← hall] at hms
  have hsub : SortedEdits i.mutations := hms.sublist (sublist_flatten_of_mem (mem_map_of_mem hi))
  exact (hanchored i hi).1.ahead hkids hs hsub

end Islands

end Prolly
